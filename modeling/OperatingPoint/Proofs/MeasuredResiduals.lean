import OperatingPoint.Proofs.Actions
import OperatingPoint.Proofs.ResidualFunctions

/-!
# Which residual has been measured

The norms of a residual are taken where it is loaded, and they are kept as long as the residual is
valid.  Loads of the Jacobian come in between, which change the overlay, and so may whatever is told
to the device layer on behalf of others.  So the norms at hand are those of the equations as they
were then, under the overlay as it was then: `Rig.Shows` says which these are, and what the overlay
of now has in common with it.

That every valid residual has been measured so is kept by every command of a bench.  Within a solve
more is known: nobody else tells the device layer anything, and no seed is left once an iteration
has been made.
-/

set_option autoImplicit false

namespace OperatingPoint

open Step

variable {δ α : Type} [Scalar α] [Device δ α] {n : Nat}

namespace Overlay

variable {o o' o'' : Overlay α}

/-- What loads and marches do to an overlay. -/
structure Persists (o o' : Overlay α) : Prop extends o.Kin o' where
  parameters : o'.parameters = o.parameters
  forwarding : o'.forwarding = o.forwarding
  used : o.pends = false → o'.pends = false

theorem Persists.refl (o : Overlay α) : o.Persists o := ⟨.refl o, rfl, rfl, id⟩

theorem Persists.obeys (h : o.Persists o') (obeys : o.Obeys) : o'.Obeys :=
  obeys.of_kin h.toKin h.parameters h.forwarding

theorem tell_congr (parameters : o'.parameters = o.parameters)
    (forwarding : o'.forwarding = o.forwarding) (d : δ) : o'.tell d = o.tell d := by
  unfold tell
  rw [parameters, forwarding]

theorem augmentJacobian_persists {A A' : Mat α n n} {load : Nat}
    (run : o.augmentJacobian load A = .ok (o', A')) : o.Persists o' where
  toKin := augmentJacobian_kin run
  parameters := (augmentJacobian_alike run).parameters
  forwarding := (augmentJacobian_alike run).forwarding
  used := augmentJacobian_pends run

end Overlay

variable [DirectSolver α]

namespace Rig

variable {P : PureDevice δ α} {c : Communicator α} {layer : δ} {v : P.View} {o before : Overlay α}
  {r r' : Rig δ α n}

/-! ## A load -/

/-- The norms at hand are those of the residual at the point of the track, as of a view and under an
overlay. -/
def MeasuredBy (P : PureDevice δ α) (c : Communicator α) (v : P.View) (o : Overlay α)
    (r : Rig δ α n) : Prop :=
  ∃ f, P.overlaid v o r.store.previous r.track.x = .ok f ∧
    r.track.iterate.measured = .norms (c.normsOf f.toArray)

/-- What a load of the residual does. -/
structure Sees (P : PureDevice δ α) (r : Rig δ α n) (ok : Bool) (r' : Rig δ α n) : Prop where
  view : P.view r'.store.device = P.view (r.track.overlay.tell r.store.device)
  parameters : r'.track.overlay.parameters = r.track.overlay.parameters
  forwarding : r'.track.overlay.forwarding = r.track.overlay.forwarding
  kin : r.track.overlay.told.Kin r'.track.overlay
  still : r.track.overlay.pends = false → r'.track.overlay = r.track.overlay.told
  x : r'.track.x = r.track.x
  previous : r'.store.previous = r.store.previous
  communicator : r'.store.communicator = r.store.communicator
  used : ok = true → r'.track.overlay.pends = false
  measured : ok = true → r'.MeasuredBy P r.store.communicator
    (P.view (r.track.overlay.tell r.store.device)) r.track.overlay.told
  failed : ok = false → r'.track.iterate.measured = .failed

theorem computeResidual_sees (P : PureDevice δ α) (invalid : r.isValid .residual = false) :
    Ends computeResidual r (fun ok r' ↦ r.Sees P ok r') (fun _ _ ↦ True) := by
  refine .of_result (computeResidual_run r) ?_ fun _ _ _ ↦ trivial
  -- What the forwarding comes to is known.
  have relayed : ∀ {device : δ} {overlay : Overlay α},
      forward r.computing = .ok () (r.computing.relay device overlay) →
        device = r.track.overlay.tell r.store.device ∧ overlay = r.track.overlay.told := by
    intro device overlay forwarded
    have same := (forward_relays r.computing).ok forwarded
    exact ⟨congrArg (fun r : Rig δ α n ↦ r.store.device) same,
      congrArg (fun r : Rig δ α n ↦ r.track.overlay) same⟩
  intro ok r' run
  cases run with
  | known valid =>
    rw [invalid] at valid
    cases valid
  | unloaded _ forwarded call failed =>
    obtain ⟨rfl, rfl⟩ := relayed forwarded
    subst call
    exact {
      view := P.residual_view ..
      parameters := r.track.overlay.told_parameters
      forwarding := r.track.overlay.told_forwarding
      kin := .refl _
      still := fun _ ↦ rfl
      x := rfl
      previous := rfl
      communicator := rfl
      used := nofun
      measured := nofun
      failed := fun _ ↦ rfl }
  | @loaded _ device overlay overlay' forwarded load call good f augmented =>
    obtain ⟨rfl, rfl⟩ := relayed forwarded
    subst call
    have alike := Overlay.augmentResidual_alike augmented
    obtain ⟨used, -, still⟩ := Overlay.augmentResidual_uses augmented
    refine {
      view := P.residual_view ..
      parameters := alike.parameters.trans r.track.overlay.told_parameters
      forwarding := alike.forwarding.trans r.track.overlay.told_forwarding
      kin := Overlay.augmentResidual_kin augmented
      still := fun used ↦ still (r.track.overlay.told_pends.trans used)
      x := rfl
      previous := rfl
      communicator := rfl
      used := fun _ ↦ used
      measured := fun _ ↦ ⟨f, ?_, rfl⟩
      failed := nofun }
    show (Overlay.augmentResidual _ r.track.x (P.residual _ r.track.x r.store.previous)).map _ = _
    rw [P.residual_buffer _ _ _ _ good] at augmented
    rw [augmented]
    rfl

/-! ## What the norms at hand show -/

/-- The norms at hand are those of a residual under an overlay from which that of now has come. -/
structure Shows (P : PureDevice δ α) (c : Communicator α) (v : P.View) (before : Overlay α)
    (r : Rig δ α n) : Prop where
  measured : r.MeasuredBy P c v before
  kin : before.Kin r.track.overlay
  used : r.track.overlay.pends = false
  obeys : r.track.overlay.Obeys

/-- A rig whose norms, as long as the residual is valid, are those of a residual.  If the device
layer keeps `apace`, it is the residual of the equations at hand; if the seeds are `spent`, none has
taken part in it. -/
structure Traced (P : PureDevice δ α) (c : Communicator α) (layer : δ) (apace spent : Prop)
    (r : Rig δ α n) : Prop where
  rest : r.AtRest
  communicator : r.store.communicator = c
  holds : r.Holds layer
  used : spent → r.track.overlay.pends = false
  residual : r.isValid .residual = true → ∃ d before, Device.Reaches layer d ∧
    r.Shows P c (P.view d) before ∧
    (apace → P.view r.store.device = P.view d ∧
      P.view (r.track.overlay.tell r.store.device) = P.view r.store.device) ∧
    (spent → before.pends = false)

variable {apace spent : Prop}

/-- Where there is no residual, nothing has been measured. -/
theorem Traced.of_stale (rest : r.AtRest) (communicator : r.store.communicator = c)
    (holds : r.Holds layer) (used : spent → r.track.overlay.pends = false)
    (stale : r.track.iterate.flags.residual ≠ .valid) : r.Traced P c layer apace spent :=
  ⟨rest, communicator, holds, used, fun valid ↦ absurd (isValid_iff.1 valid).1 stale⟩

/-- A residual that is still valid has been measured as it was. -/
theorem Traced.still (settles : P.Settles) (h : r.Traced P c layer apace spent)
    (rest : r'.AtRest) (communicator : r'.store.communicator = r.store.communicator)
    (holds : r'.Holds layer) (persists : r.track.overlay.Persists r'.track.overlay)
    (previous : r'.store.previous = r.store.previous)
    (view : apace → P.view r'.store.device = P.view r.store.device)
    (residual : r'.isValid .residual = true → r.isValid .residual = true ∧
      r'.track.x = r.track.x ∧ r'.track.iterate.measured = r.track.iterate.measured) :
    r'.Traced P c layer apace spent where
  rest := rest
  communicator := communicator.trans h.communicator
  holds := holds
  used all := persists.used (h.used all)
  residual valid := by
    obtain ⟨valid, x, measured⟩ := residual valid
    obtain ⟨d, before, reached, shows, keeps, pure⟩ := h.residual valid
    refine ⟨d, before, reached, ⟨?_, shows.kin.trans persists.toKin, persists.used shows.used,
      persists.obeys shows.obeys⟩, fun now ↦ ?_, pure⟩
    · unfold MeasuredBy
      rw [x, previous, measured]
      exact shows.measured
    · obtain ⟨same, told⟩ := keeps now
      refine ⟨(view now).trans same, ?_⟩
      rw [Overlay.tell_congr persists.parameters persists.forwarding]
      exact settles.tell ((view now).trans told.symm)

/-! ## What is done to a track -/

/-- A change that leaves nothing known. -/
theorem Traced.forget (h : r.Traced P c layer apace spent) {t : Track α n}
    (flags : t.iterate.flags = {}) (used : spent → t.overlay.pends = false) :
    Traced P c layer apace spent { r with track := t } :=
  .of_stale ⟨h.rest.paired, .of_fresh flags⟩ h.communicator h.holds used (by
    show t.iterate.flags.residual ≠ .valid
    rw [flags]
    nofun)

theorem computeResidual_traced (settles : P.Settles) (h : r.Traced P c layer apace spent) :
    Ends computeResidual r (fun _ r' ↦ r'.Traced P c layer apace spent)
      (fun _ r' ↦ r'.Traced P c layer apace spent) := by
  cases invalid : r.isValid .residual with
  | true =>
    rw [ends_of_ok (computeResidual_of_valid invalid)]
    exact h
  | false =>
    have frames := computeResidual_frames r
    have stays := computeResidual_stays h.rest
    have holds := computeResidual_holds r h.holds
    have told := forward_overlay (r := r.computing) (K := fun o ↦ spent → o.pends = false)
      (fun used told all ↦ by
        rw [← Overlay.dialed_of_setProgress told, Overlay.dialed_pends, used all])
      (fun used told all ↦ by
        rw [← Overlay.dialed_of_setBlend told, Overlay.dialed_pends, used all]) h.used
    refine .of_result (R := fun result ↦ ResidualRun r result ∧ computeResidual r = result)
      ⟨computeResidual_run r, rfl⟩ ?_ ?_
    · rintro ok r' ⟨run, ran⟩
      have sees := (computeResidual_sees P invalid).ok ran
      refine ⟨(stays.ok ran).1.rest, (frames.ok ran).communicator.trans h.communicator,
        holds.ok ran, fun all ↦ ?_, fun valid ↦ ?_⟩
      · rw [sees.still (h.used all), Overlay.told_pends, h.used all]
      · have good : ok = true := run.valid.symm.trans valid
        refine ⟨r'.store.device, r.track.overlay.told, holds.ok ran,
          ⟨?_, sees.kin, sees.used good, ?_⟩, fun _ ↦ ⟨rfl, ?_⟩, fun all ↦ ?_⟩
        · rw [sees.view, ← h.communicator]
          exact sees.measured good
        · exact r.track.overlay.obeys_told.of_kin sees.kin
            (sees.parameters.trans r.track.overlay.told_parameters.symm)
            (sees.forwarding.trans r.track.overlay.told_forwarding.symm)
        · rw [Overlay.tell_congr sees.parameters sees.forwarding]
          exact settles.tell sees.view
        · rw [Overlay.told_pends, h.used all]
    · rintro stop r' ⟨run, ran⟩
      have rest := (stays.error ran).rest
      have communicator := (frames.error ran).communicator.trans h.communicator
      have holds := holds.error ran
      cases run with
      | reentered => exact h
      | refused _ forwarded =>
        have used := told.error forwarded
        exact .of_stale rest communicator holds used nofun
      | stuck _ forwarded =>
        have used := told.ok forwarded
        exact .of_stale rest communicator holds used nofun

theorem Traced.outdated (h : r.Traced P c layer apace spent) :
    r.outdated.Traced P c layer apace spent :=
  .of_stale h.rest.outdated h.communicator h.holds h.used nofun

theorem computeJacobian_traced (settles : P.Settles) (h : r.Traced P c layer apace spent) :
    Ends computeJacobian r (fun _ r' ↦ r'.Traced P c layer apace spent)
      (fun _ r' ↦ r'.Traced P c layer apace spent) := by
  have renewed := computeResidual_traced settles h.outdated
  have holds := computeJacobian_holds r h.holds
  have stays := computeJacobian_stays h.rest
  -- A load of the Jacobian leaves the residual as it has been measured.
  have loaded {r' : Rig δ α n} (base : Refreshed r r') {A : Mat α n n} {flags : Flags}
      {overlay : Overlay α} (up : flags.residual = r'.track.iterate.flags.residual)
      (persists : r'.track.overlay.Persists overlay) :
      let r'' := r'.put { r'.store.afterJacobian r'.track.iterate.id
        (r'.store.jacobianLoad r'.track.x) with jacobian := A }
        { r'.track.iterate with flags := flags } overlay
      r''.AtRest → r''.Holds layer → r''.Traced P c layer apace spent := by
    intro r'' rest holds
    have traced : r'.Traced P c layer apace spent := base.keeps h fun _ ↦ renewed
    refine traced.still settles rest rfl holds persists rfl (fun _ ↦ P.jacobian_view ..)
      fun valid ↦ ⟨?_, rfl, rfl⟩
    obtain ⟨flag, owned⟩ := isValid_iff.1 valid
    exact isValid_iff.2 ⟨up.symm.trans flag, by simpa [r''] using owned⟩
  refine .of_result (R := fun result ↦ JacobianRun r result ∧ computeJacobian r = result)
    ⟨computeJacobian_run r, rfl⟩ ?_ ?_
  · rintro ok r' ⟨run, ran⟩
    have rest := (stays.ok ran).1.rest
    have holds := holds.ok ran
    cases run with
    | known => exact h
    | unrefreshed _ _ run => exact renewed.ok run
    | unloaded _ base call =>
      subst call
      exact loaded base rfl (.refl _) rest holds
    | loaded _ base call _ augmented =>
      subst call
      exact loaded base rfl (Overlay.augmentJacobian_persists augmented) rest holds
  · rintro stop r' ⟨run, ran⟩
    have rest := (stays.error ran).rest
    have holds := holds.error ran
    cases run with
    | reentered => exact h
    | refused _ _ run => exact renewed.error run
    | stuck _ base call =>
      subst call
      exact loaded base rfl (.refl _) rest holds

theorem computeNewton_traced (settles : P.Settles) (h : r.Traced P c layer apace spent)
    (mayReuse : Bool) :
    Ends (computeNewton mayReuse) r (fun _ r' ↦ r'.Traced P c layer apace spent)
      (fun _ r' ↦ r'.Traced P c layer apace spent) := by
  have stays := computeNewton_stays h.rest mayReuse
  have solved {s : Store δ α n} {flag : Validity} (communicator : s.communicator = c)
      (previous : s.previous = r.store.previous) (device : s.device = r.store.device)
      (owner : s.owners.of .residual = r.store.owners.of .residual) :
      let r' := r.put s (withNewton r.track.iterate flag) r.track.overlay
      r'.AtRest → r'.Traced P c layer apace spent := by
    intro r' rest
    refine h.still settles rest (communicator.trans h.communicator.symm) ?_ (.refl _) previous
      (fun _ ↦ congrArg P.view device) fun valid ↦ ⟨?_, rfl, rfl⟩
    · show Device.Reaches layer s.device
      rw [device]
      exact h.holds
    · obtain ⟨flag, owned⟩ := isValid_iff.1 valid
      exact isValid_iff.2 ⟨flag, owner.symm.trans owned⟩
  refine .of_result (R := fun result ↦ NewtonRun r mayReuse result ∧
    computeNewton mayReuse r = result) ⟨computeNewton_run r mayReuse, rfl⟩ ?_ ?_
  · rintro ok r' ⟨run, ran⟩
    have rest := (stays.ok ran).1.rest
    cases run with
    | known => exact h
    | solved => exact solved h.communicator rfl rfl (by simp) rest
    | refused => exact solved h.communicator rfl rfl (by simp) rest
  · rintro stop r' ⟨run, ran⟩
    have rest := (stays.error ran).rest
    cases run with
    | noResidual => exact h
    | noJacobian => exact h
    | stopped => exact solved h.communicator rfl rfl rfl rest

/-- What a Newton driver does to a rig. -/
theorem keeps_traced (settles : P.Settles) :
    Keeps (Traced (n := n) P c layer apace spent) fun _ ↦ True where
  rest h := h.rest
  move h _ := h.forget rfl h.used
  residual h := (computeResidual_traced settles h).mono (fun _ _ kept ↦ kept)
    fun _ _ kept ↦ ⟨trivial, kept⟩
  jacobian h := (computeJacobian_traced settles h).mono (fun _ _ kept ↦ kept)
    fun _ _ kept ↦ ⟨trivial, kept⟩
  newton h _ mayReuse _ := (computeNewton_traced settles h mayReuse).mono (fun _ _ kept ↦ kept)
    fun _ _ kept ↦ ⟨trivial, kept⟩

/-- A step in pseudo-time does not enter a residual. -/
theorem Traced.pseudo (settles : P.Settles) (h : r.Traced P c layer apace spent)
    {p p' : PseudoTime α} (there : r.track.pseudoTime? = .ok p)
    (frame : (Augmentation.pseudoTransient p').frame = (Augmentation.pseudoTransient p).frame) :
    Traced P c layer apace spent { r with track := r.track.putPseudoTime p' } := by
  refine h.still settles ⟨h.rest.paired, Track.putPseudoTime_rests h.rest.rests _⟩ rfl h.holds ?_
    rfl (fun _ ↦ rfl) fun valid ↦ ⟨isValid_iff.2 (isValid_iff.1 valid), rfl, rfl⟩
  refine ⟨⟨?_, rfl⟩, rfl, rfl, fun _ ↦ rfl⟩
  rw [Track.strategy_of_pseudoTime? there]
  exact congrArg some frame

/-- What commands do to a rig. -/
theorem keepsCommands_traced (settles : P.Settles) :
    KeepsCommands (Traced (n := n) P c layer False False) where
  toKeeps := keeps_traced settles
  parameter {r} h name value := by
    rcases (Track.setParameter_shifts r.track name value).stale with same | stale
    · rw [same]
      exact h
    · exact h.forget stale False.elim
  accept {r} h := h.still settles ⟨h.rest.paired, h.rest.rests⟩ rfl (.accept h.holds _) (.refl _)
    rfl False.elim fun valid ↦ ⟨valid, rfl, rfl⟩
  abandon h := h.still settles ⟨h.rest.paired, h.rest.rests⟩ rfl (.abandon h.holds) (.refl _) rfl
    False.elim fun valid ↦ ⟨valid, rfl, rfl⟩
  pseudo h _ _ there frame := h.pseudo settles there frame
  shift {r} h t shifts := by
    rcases shifts.stale with rfl | stale
    · exact h
    · exact h.forget stale False.elim
  derivatives h := h.still settles ⟨h.rest.paired, h.rest.rests.residual, nofun⟩ rfl h.holds
    (.refl _) rfl False.elim fun valid ↦ ⟨isValid_iff.2 (isValid_iff.1 valid), rfl, rfl⟩
  gradient := by
    intro r h
    refine (keepsCommands_rest.gradient r h.rest).mp (.of_result (computeGradient_run r) ?_ ?_)
    · intro _ r' run rest
      cases run with
      | known => exact h
      | computed =>
        refine h.still settles rest rfl h.holds (.refl _) rfl False.elim fun valid ↦ ⟨?_, rfl, rfl⟩
        obtain ⟨flag, owned⟩ := isValid_iff.1 valid
        exact isValid_iff.2 ⟨flag, by simpa using owned⟩
    · intro _ r' run _
      cases run with
      | noJacobian => exact h
      | noResidual => exact h
  give h name value := h.still settles ⟨h.rest.paired, h.rest.rests⟩ rfl
    (.parameter h.holds name value) (.refl _) rfl False.elim fun valid ↦ ⟨valid, rfl, rfl⟩

/-- What two properties of rigs keep through commands, both keep. -/
theorem KeepsCommands.and {I J : Rig δ α n → Prop} (h : KeepsCommands I) (h' : KeepsCommands J) :
    KeepsCommands fun r ↦ I r ∧ J r where
  toKeeps := (h.toKeeps.and h'.toKeeps).weaken fun _ _ ↦ trivial
  parameter both name value := ⟨h.parameter both.1 name value, h'.parameter both.2 name value⟩
  accept both := ⟨h.accept both.1, h'.accept both.2⟩
  abandon both := ⟨h.toKeepsSteps.abandon both.1, h'.toKeepsSteps.abandon both.2⟩
  pseudo both _ _ there frame := ⟨h.pseudo both.1 there frame, h'.pseudo both.2 there frame⟩
  shift both _ shifts := ⟨h.shift both.1 shifts, h'.shift both.2 shifts⟩
  derivatives both := ⟨h.derivatives both.1, h'.derivatives both.2⟩
  gradient r both := (h.gradient r both.1).and (h'.gradient r both.2)
  give both name value := ⟨h.give both.1 name value, h'.give both.2 name value⟩

end Rig

/-! ## All tracks of a bench -/

namespace Bench

variable {P : PureDevice δ α} {c : Communicator α} {layer : δ}

/-- The norms of every track on the bench, as long as its residual is valid, are those of a
residual. -/
structure Traced (P : PureDevice δ α) (c : Communicator α) (layer : δ) (b : Bench δ α n) :
    Prop where
  known : b.Known
  communicator : b.store.communicator = c
  holds : Device.Reaches layer b.store.device
  track : ∀ k t, b.Live k t → Rig.Traced P c layer False False ⟨b.store, t⟩

namespace Traced

variable {b : Bench δ α n} {k : Nat} {t : Track α n}

/-- A track that is left alone goes on as it was. -/
theorem spared (settles : P.Settles) (h : b.Traced P c layer) (live : b.Live k t)
    {s : Store δ α n} {id : OwnerId} (paired : s.Paired) (communicator : s.communicator = c)
    (holds : Device.Reaches layer s.device) (spares : b.store.Spares id s)
    (other : t.iterate.id ≠ id) : Rig.Traced P c layer False False ⟨s, t⟩ := by
  have old := h.track k t live
  refine old.still settles ⟨paired, old.rest.rests⟩ (communicator.trans h.communicator.symm) holds
    (.refl _) spares.previous False.elim fun valid ↦ ⟨?_, rfl, rfl⟩
  obtain ⟨flag, owned⟩ := Rig.isValid_iff.1 valid
  exact Rig.isValid_iff.2 ⟨flag, (spares.others .residual _ other owned).1⟩

/-- A track does something. -/
theorem withEngine (settles : P.Settles) (h : b.Traced P c layer) (live : b.Live k t)
    {e : Engine δ α n} (traced : e.rig.Traced P c layer False False)
    (acts : Rig.Acts ⟨b.store, t⟩ e.rig) : (b.withEngine k e).Traced P c layer where
  known := h.known.withEngine live traced.rest acts
  communicator := traced.communicator
  holds := traced.holds
  track k' t' live' := by
    rcases live_replace live' with ⟨_, same⟩ | ⟨other, old⟩
    · cases same
      exact traced
    · exact h.spared settles old traced.rest.paired traced.communicator traced.holds
        acts.store.spares (h.known.registered.ne live old other)

/-- A track comes up. -/
theorem push (settles : P.Settles) (h : b.Traced P c layer) {s : Store δ α n}
    (known : Known { b with store := s, tracks := b.tracks.push (some t) })
    (traced : Rig.Traced P c layer False False ⟨s, t⟩) (id : t.iterate.id = b.store.lastId + 1)
    (spares : b.store.Spares t.iterate.id s) :
    Traced P c layer { b with store := s, tracks := b.tracks.push (some t) } where
  known := known
  communicator := traced.communicator
  holds := traced.holds
  track k' t' live' := by
    rcases live_push live' with ⟨_, rfl⟩ | old
    · exact traced
    · exact h.spared settles old traced.rest.paired traced.communicator traced.holds spares
        (id ▸ h.known.registered.ne_next old)

theorem copy (settles : P.Settles) (h : b.Traced P c layer) (live : b.Live k t) :
    Traced P c layer { b with
      store := (t.deepClone b.store).2
      tracks := b.tracks.push (some (t.deepClone b.store).1) } := by
  have old := h.track k t live
  have known := h.known.copy live
  refine h.push settles known (old.still settles ?_ rfl h.holds (.refl _) rfl False.elim
    fun valid ↦ ⟨h.known.registered.isValid_of_copy valid, rfl, rfl⟩) rfl
    (Registered.spares_deepClone b t)
  exact ⟨known.rest.paired, old.rest.rests.residual, old.rest.rests.jacobian⟩

end Traced

theorem keepsTracks_traced (settles : P.Settles) : KeepsTracks (Traced (n := n) P c layer) where
  track {b} h k t _ live := ⟨_, ⟨h.track k t live, h.known.rest.rig live, .refl _⟩,
    (Rig.keepsCommands_traced settles).and (Rig.keepsCommands_acts ⟨b.store, t⟩),
    fun _ kept ↦ h.withEngine settles live kept.1 kept.2.2⟩
  beside h newton held := ⟨keepsTracks_known.beside h.known newton held, h.communicator, h.holds,
    h.track⟩
  add h x overlay _ := h.push settles (h.known.add x overlay)
    (.of_stale ⟨h.known.rest.paired, .of_fresh rfl⟩ h.communicator h.holds False.elim nofun) rfl
    (.register ..)
  copy h _ _ live := h.copy settles live
  retire {b} h k t live := by
    have known := h.known.retire live
    refine ⟨known, h.communicator, h.holds, fun k' t' live' ↦ ?_⟩
    obtain ⟨other, old⟩ := live_of_retired live'
    exact h.spared settles old known.rest.paired h.communicator h.holds (.release ..)
      (h.known.registered.ne live old other)
  setPrevious {b} h x := by
    have known := h.known.setPrevious x
    refine ⟨known, h.communicator, h.holds, fun k t live ↦ ⟨known.rest.rig live, h.communicator,
      h.holds, False.elim, fun valid ↦ ?_⟩⟩
    have owned := (Rig.isValid_iff.1 valid).2
    rw [Store.setPrevious_owner] at owned
    cases owned

theorem run_traced (settles : P.Settles) (device : δ) (communicator : Communicator α)
    (linear : LinearOptions α) (newton : Newton α) (history : List (Request α n)) :
    ((empty device communicator linear newton n).run history).Traced P communicator device :=
  run_preserves ⟨empty_known .., rfl, .refl, fun _ _ live ↦ by cases live⟩
    fun request _ ↦ (keepsTracks_traced settles).preserves_perform request.2

end Bench

end OperatingPoint
