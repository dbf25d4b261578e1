import OperatingPoint.Proofs.Histories
import OperatingPoint.Proofs.MarchRun
import OperatingPoint.Proofs.StepperRun
import OperatingPoint.Proofs.TrackShifts

/-!
# What every command of a bench keeps

Most commands of a bench do something to one track: they compute, they change what is laid over the
equations, or they run a whole program.  A property of rigs that survives the few things that such
commands are made of is `Rig.KeepsCommands`, or `Rig.KeepsQuiet` if it survives all of them but an
accepted point, or `Rig.KeepsUnattached` if a strategy that is attached may break it as well.  Beyond
that tracks come up, are copied and go, and the solution of the previous point changes.  A property
of benches that survives all of this is one that it `Bench.Hosts`, and every command keeps it, however
it ends.
-/

set_option autoImplicit false

namespace OperatingPoint

open Step

variable {δ α : Type} [Scalar α] [DirectSolver α] [Device δ α] {n : Nat} {β : Type}

/-! ## Commands to one track -/

/-- A property of rigs that survives whatever a command does to one track, unless it attaches a
strategy or accepts a point. -/
structure Rig.KeepsUnattached (I : Rig δ α n → Prop) : Prop extends
    Rig.KeepsMarch I fun _ ↦ True where
  /-- The equations change without a new strategy, and nothing is known any more. -/
  adjust : ∀ {r : Rig δ α n}, I r → ∀ {t}, r.track.Adjusts t → I { r with track := t }
  derivatives : ∀ {r}, I r → I (r.put r.store r.track.iterate.invalidateDerivatives r.track.overlay)
  gradient : Preserves Rig.computeGradient I
  /-- The device layer is offered a value, whether or not it takes it. -/
  give : ∀ {r}, I r → ∀ name value, I { r with
    store := { r.store with device := (Device.setParameter r.store.device name value).2 } }
  abandon : ∀ {r}, I r →
    I { r with store := { r.store with device := Device.abandon r.store.device } }

/-- A property of rigs that survives whatever a command does to one track, unless a point of it is
accepted. -/
structure Rig.KeepsQuiet (I : Rig δ α n → Prop) : Prop extends Rig.KeepsUnattached I where
  /-- The equations change, and nothing is known any more. -/
  shift : ∀ {r : Rig δ α n}, I r → ∀ {t}, r.track.Shifts t → I { r with track := t }
  adjust h _ adjusts := shift h adjusts.toShifts

/-- A property of rigs that survives whatever a command does to one track. -/
structure Rig.KeepsCommands (I : Rig δ α n → Prop) : Prop extends
    Rig.KeepsSteps I fun _ ↦ True, Rig.KeepsQuiet I

namespace Rig.KeepsUnattached

variable {I : Rig δ α n → Prop}

theorem preserves_move (keeps : KeepsUnattached I) (x : Vector α n) :
    Preserves (modifyTrack fun t ↦ t.setX x) I :=
  fun _ h ↦ keeps.move h x

theorem preserves_residual (keeps : KeepsUnattached I) : Preserves computeResidual I :=
  fun _ h ↦ (keeps.residual h).mono (fun _ _ kept ↦ kept) fun _ _ kept ↦ kept.2

theorem preserves_jacobian (keeps : KeepsUnattached I) : Preserves computeJacobian I :=
  fun _ h ↦ (keeps.jacobian h).mono (fun _ _ kept ↦ kept) fun _ _ kept ↦ kept.2

theorem preserves_adjust (keeps : KeepsUnattached I) {change : Track α n → Track α n}
    (adjusts : ∀ t : Track α n, t.Adjusts (change t)) : Preserves (modifyTrack change) I :=
  fun _ h ↦ keeps.adjust h (adjusts _)

theorem preserves_push (keeps : KeepsUnattached I) (name : String) (value : α) :
    Preserves (pushParameter name value) I := by
  intro r h
  unfold pushParameter giveToDevice
  simp only [ends_bind, ends_get, ends_set, ends_ite, ends_pure, ends_fault, ends_modifyTrack]
  have given := keeps.give (keeps.adjust h (r.track.setParameter_adjusts name value)) name value
  exact ⟨fun _ ↦ given, fun _ ↦ given⟩

theorem acceptPseudoStep (keeps : KeepsUnattached I) {r : Rig δ α n} (h : I r) {norm : α}
    {t : Track α n} (changed : r.track.acceptPseudoStep norm = .ok t) :
    I { r with track := t } := by
  obtain ⟨p, there, same⟩ := bind_eq_ok.1 changed
  cases same
  exact keeps.pseudo h there (p.accept_frame norm)

theorem halvePseudoStep (keeps : KeepsUnattached I) {r : Rig δ α n} (h : I r) {t : Track α n}
    {halved : Bool} (changed : r.track.halvePseudoStep = .ok (t, halved)) :
    I { r with track := t } := by
  obtain ⟨p, there, changed⟩ := bind_eq_ok.1 changed
  split at changed
  · rename_i less
    cases changed
    exact keeps.pseudo h there (PseudoTime.halve_frame less)
  · cases changed
    exact keeps.pseudo h there rfl

end Rig.KeepsUnattached

namespace Bench

/-- A property of benches that survives that tracks come and go, and whatever a command does to one
track, if that is made of what the properties in `K` survive and the number of the track is in
`On`. -/
structure Hosts (On : Nat → Prop) (K : (Rig δ α n → Prop) → Prop) (J : Bench δ α n → Prop) :
    Prop where
  /-- Something that the rig of a track keeps brings the property back for the bench. -/
  track : ∀ {b}, J b → ∀ {k t}, On k → b.Live k t → ∃ I : Rig δ α n → Prop, I ⟨b.store, t⟩ ∧
    K I ∧ ∀ e : Engine δ α n, I e.rig → J (b.withEngine k e)
  /-- The Newton driver and the strategy that is held are nobody's. -/
  beside : ∀ {b}, J b → ∀ newton held, J { b with newton := newton, held := held }
  /-- A track comes up without a strategy and with nothing computed at it. -/
  add : ∀ {b}, J b → ∀ x overlay, overlay.strategy = none → J { b with
    store := b.store.register.2
    tracks := b.tracks.push (some { iterate := (Iterate.new b.store x).1, overlay := overlay }) }
  copy : ∀ {b}, J b → ∀ {k t}, b.Live k t → J { b with
    store := (t.deepClone b.store).2
    tracks := b.tracks.push (some (t.deepClone b.store).1) }
  retire : ∀ {b}, J b → ∀ {k t}, b.Live k t →
    J { b.replace k none with store := b.store.release t.iterate.id }
  setPrevious : ∀ {b}, J b → ∀ x, J { b with store := b.store.setPrevious x }

/-- A property of benches that survives whatever a command does. -/
abbrev KeepsTracks (J : Bench δ α n → Prop) : Prop := Hosts (fun _ ↦ True) Rig.KeepsCommands J

/-- The number of the track that a command is for. -/
def Command.track? : Command α n β → Option Nat
  | .add _ => none
  | .addZero => none
  | .deepClone k => k
  | .shallowClone k => k
  | .retire k => k
  | .setPrevious _ => none
  | .setX k _ => k
  | .moveAlong k _ _ _ => k
  | .invalidate k => k
  | .invalidateDerivatives k => k
  | .computeResidual k => k
  | .computeJacobian k => k
  | .computeNewton k _ => k
  | .computeGradient k => k
  | .residual k => k
  | .direction k => k
  | .gradient k => k
  | .jacobian k => k
  | .isValid k _ => k
  | .applyJacobian k _ _ => k
  | .applyTranspose k _ _ => k
  | .setParameter k _ _ => k
  | .pushParameter k _ _ => k
  | .removeParameter k _ => k
  | .setForwarding k _ => k
  | .attach k _ => k
  | .detach k => k
  | .reattach k => k
  | .acceptPseudoStep k _ => k
  | .halvePseudoStep k => k
  | .attachBlend k _ => k
  | .detachBlend k => k
  | .succeed k => k
  | .fail k => k
  | .reset => none
  | .begin k => k
  | .advance k => k
  | .solve k => k
  | .step k _ => k
  | .march k _ => k

/-- Whether a command may hand a point over as accepted. -/
def Command.handsOver : Command α n β → Bool
  | .succeed _ => true
  | .step _ _ => true
  | _ => false

/-- Whether a command attaches a strategy. -/
def Command.attaches : Command α n β → Bool
  | .attach _ _ => true
  | .reattach _ => true
  | _ => false

namespace Hosts

variable {On : Nat → Prop} {K : (Rig δ α n → Prop) → Prop} {J : Bench δ α n → Prop} {k : Nat}

omit [Device δ α] in
theorem preserves_track (k : Nat) : Preserves (Bench.track k) J :=
  fun _ h ↦ ends_track (fun _ _ ↦ h) fun _ ↦ h

omit [Device δ α] in
theorem onEngine (hosts : Hosts On K J) (on : On k) {act : Step (Engine δ α n) β}
    (step : ∀ {I : Rig δ α n → Prop}, K I → Preserves act fun e ↦ I e.rig) :
    Preserves (Bench.onEngine k act) J := by
  intro b h
  refine ends_onEngine (fun t live ↦ ?_) fun _ ↦ h
  obtain ⟨I, here, keepsRig, back⟩ := hosts.track h on live
  exact (step keepsRig (b.engine t) here).mono (fun _ e kept ↦ back e kept)
    fun _ e kept ↦ back e kept

omit [Device δ α] in
theorem onRig (hosts : Hosts On K J) (on : On k) {act : Step (Rig δ α n) β}
    (step : ∀ {I : Rig δ α n → Prop}, K I → Preserves act I) :
    Preserves (Bench.onRig k act) J :=
  hosts.onEngine on fun keepsRig ↦ .zoom (step keepsRig) (fun _ h ↦ h) fun _ _ _ h ↦ h

omit [Device δ α] in
theorem changeTrack (hosts : Hosts On K J) (on : On k)
    {change : Track α n → Except Fault (β × Track α n)}
    (step : ∀ {I : Rig δ α n → Prop}, K I → ∀ {r b t}, I r →
      change r.track = .ok (b, t) → I { r with track := t }) :
    Preserves (Bench.changeTrack k change) J := by
  refine hosts.onRig on fun keepsRig r h ↦ ?_
  simp only [ends_bind, ends_get, ends_orFault, ends_set, ends_pure, Prod.forall]
  exact ⟨fun b t changed ↦ step keepsRig h changed, fun _ _ ↦ h⟩

omit [Device δ α] in
theorem view (hosts : Hosts On K J) (on : On k)
    {read : Iterate α n → Store δ α n → Except Fault β} : Preserves (Bench.view k read) J :=
  hosts.onRig on fun _ ↦ .bind .get fun _ ↦ .orFault _

section

variable (hosts : Hosts On K J) (keeps : ∀ {I : Rig δ α n → Prop}, K I → Rig.KeepsUnattached I)
include hosts keeps

theorem modifyTrack (on : On k) {change : Track α n → Track α n}
    (adjusts : ∀ t : Track α n, t.Adjusts (change t)) : Preserves (Bench.modifyTrack k change) J :=
  hosts.onRig on fun keepsRig ↦ (keeps keepsRig).preserves_adjust adjusts

/-- Every command that attaches nothing and hands no point over keeps the property, however it
ends. -/
theorem preserves_unattached (c : Command α n β) (on : ∀ k, c.track? = some k → On k)
    (silent : c.handsOver = false) (unattached : c.attaches = false) : Preserves (perform c) J := by
  cases c with
  | add x =>
    intro b h
    simp only [perform, put, ends_bind, ends_get, ends_set, ends_pure, ends_orFault]
    exact ⟨fun x _ ↦ hosts.add h x _ rfl, fun _ _ ↦ h⟩
  | addZero =>
    intro b h
    simp only [perform, put, ends_bind, ends_get, ends_set, ends_pure]
    exact hosts.add h _ _ rfl
  | deepClone k =>
    intro b h
    simp only [perform, put, ends_bind, ends_get, ends_set, ends_pure]
    exact ends_track (fun t live ↦ hosts.copy h live) fun _ ↦ h
  | shallowClone k =>
    intro b h
    simp only [perform, put, ends_bind, ends_get, ends_set, ends_pure]
    exact ends_track (fun t live ↦ hosts.add h _ _ rfl) fun _ ↦ h
  | retire k =>
    intro b h
    simp only [perform, ends_bind, ends_modify]
    exact ends_track (fun t live ↦ hosts.retire h live) fun _ ↦ h
  | setPrevious x =>
    rw [perform]
    exact .bind (.orFault _) fun x ↦ .modify fun b h ↦ hosts.setPrevious h x
  | setX k x =>
    rw [perform]
    exact hosts.onRig (on k rfl) fun keepsRig ↦
      .bind (.orFault _) fun x ↦ (keeps keepsRig).preserves_move x
  | moveAlong k base direction step =>
    refine hosts.onRig (on k rfl) fun keepsRig r h ↦ ?_
    simp only [ends_dite, ends_fault, Rig.ends_modifyIterate]
    exact ⟨fun _ ↦ (keeps keepsRig).move h _, fun _ ↦ h⟩
  | invalidate k =>
    rw [perform]
    exact hosts.modifyTrack keeps (on k rfl) fun t ↦ .of_invalidate rfl rfl (.inl rfl)
  | invalidateDerivatives k =>
    exact hosts.onRig (on k rfl) fun keepsRig r h ↦ (keeps keepsRig).derivatives h
  | computeResidual k =>
    exact hosts.onRig (on k rfl) fun keepsRig ↦ (keeps keepsRig).preserves_residual
  | computeJacobian k =>
    exact hosts.onRig (on k rfl) fun keepsRig ↦ (keeps keepsRig).preserves_jacobian
  | computeNewton k mayReuse =>
    exact hosts.onRig (on k rfl) fun keepsRig ↦ (keeps keepsRig).toKeeps.preserves_newton mayReuse
  | computeGradient k => exact hosts.onRig (on k rfl) fun keepsRig ↦ (keeps keepsRig).gradient
  | residual k => rw [perform]; exact hosts.view (on k rfl)
  | direction k => rw [perform]; exact hosts.view (on k rfl)
  | gradient k => rw [perform]; exact hosts.view (on k rfl)
  | isValid k qs => rw [perform]; exact hosts.view (on k rfl)
  | jacobian k =>
    rw [perform]
    exact .bind (preserves_track k) fun _ ↦ .bind .get fun _ ↦ .pure _
  | applyJacobian k v length =>
    rw [perform]
    exact .bind (.lift _) fun _ ↦ hosts.view (on k rfl)
  | applyTranspose k v length =>
    rw [perform]
    exact .bind (.lift _) fun _ ↦ hosts.view (on k rfl)
  | setParameter k name value =>
    rw [perform]
    exact hosts.modifyTrack keeps (on k rfl) fun t ↦ t.setParameter_adjusts name value
  | pushParameter k name value =>
    exact hosts.onRig (on k rfl) fun keepsRig ↦ (keeps keepsRig).preserves_push name value
  | removeParameter k name =>
    rw [perform]
    refine hosts.changeTrack (on k rfl) fun keepsRig r b t h changed ↦ ?_
    cases changed
    exact (keeps keepsRig).adjust h (r.track.removeParameter_adjusts name)
  | setForwarding k forwarding =>
    rw [perform]
    exact hosts.modifyTrack keeps (on k rfl) fun t ↦ t.setForwarding_adjusts forwarding
  | attach k a => cases unattached
  | detach k =>
    rw [perform]
    refine .bind (preserves_track k) fun t ↦
      .bind (hosts.modifyTrack keeps (on k rfl) fun t ↦ t.detach_adjusts) fun _ ↦ ?_
    exact .bind (.modify fun b h ↦ hosts.beside h _ _) fun _ ↦ .pure _
  | reattach k => cases unattached
  | acceptPseudoStep k norm =>
    rw [perform]
    refine hosts.changeTrack (on k rfl) fun keepsRig r b t h changed ↦ ?_
    obtain ⟨t₁, accepted, changed⟩ := bind_eq_ok.1 changed
    obtain ⟨_, _, same⟩ := bind_eq_ok.1 changed
    cases same
    exact (keeps keepsRig).acceptPseudoStep h accepted
  | halvePseudoStep k =>
    rw [perform]
    refine hosts.changeTrack (on k rfl) fun keepsRig r b t h changed ↦ ?_
    obtain ⟨p, halved, same⟩ := map_eq_ok.1 changed
    cases same
    exact (keeps keepsRig).halvePseudoStep h halved
  | attachBlend k start =>
    rw [perform]
    exact hosts.modifyTrack keeps (on k rfl) fun t ↦ .of_invalidate rfl rfl (.inl rfl)
  | detachBlend k =>
    rw [perform]
    refine hosts.changeTrack (on k rfl) fun keepsRig r b t h changed ↦ ?_
    cases changed
    exact (keeps keepsRig).adjust h r.track.detachBlend_adjusts
  | succeed k => cases silent
  | fail k => exact hosts.onRig (on k rfl) fun keepsRig r h ↦ (keeps keepsRig).abandon h
  | reset =>
    rw [perform]
    exact .modify fun b h ↦ hosts.beside h _ _
  | begin k =>
    exact hosts.onEngine (on k rfl) fun keepsRig e h ↦
      (Engine.begin_keeps (keeps keepsRig).toKeeps h).mono (fun _ _ kept ↦ kept.1.keeps) fun _ _ halted ↦ halted.2.keeps
  | advance k =>
    exact hosts.onEngine (on k rfl) fun keepsRig e h ↦
      (Engine.advance_keeps (keeps keepsRig).toKeeps h).mono (fun _ _ kept ↦ kept.keeps) fun _ _ halted ↦ halted.1.keeps
  | solve k =>
    exact hosts.onEngine (on k rfl) fun keepsRig e h ↦
      (Engine.solve_keeps (keeps keepsRig).toKeeps h).mono (fun _ _ kept ↦ kept.arrives.keeps) fun _ _ halted ↦ halted.2.keeps
  | step k stepper => cases silent
  | march k options =>
    exact hosts.onRig (on k rfl) fun keepsRig ↦
      (March.guards_run (keeps keepsRig).toKeepsMarch options).preserves

end

section

variable (hosts : Hosts On K J) (quiet : ∀ {I : Rig δ α n → Prop}, K I → Rig.KeepsQuiet I)
include hosts quiet

theorem attach (on : On k) (a : Augmentation α) :
    Preserves (Bench.changeTrack k fun t ↦ (t.attach a).map ((), ·)) J := by
  refine hosts.changeTrack on fun keepsRig r b t h changed ↦ ?_
  obtain ⟨t₁, attached, same⟩ := map_eq_ok.1 changed
  cases same
  exact (quiet keepsRig).shift h (Track.attach_shifts attached)

/-- Every command that hands no point over keeps the property, however it ends. -/
theorem preserves_quiet (c : Command α n β) (on : ∀ k, c.track? = some k → On k)
    (silent : c.handsOver = false) : Preserves (perform c) J := by
  cases c with
  | attach k a =>
    rw [perform]
    exact hosts.attach quiet (on k rfl) a
  | reattach k =>
    rw [perform]
    refine .bind .get fun b ↦ ?_
    split
    · exact .throw _
    · exact .bind (.modify fun b h ↦ hosts.beside h _ _) fun _ ↦ hosts.attach quiet (on k rfl) _
  | _ =>
    exact hosts.preserves_unattached (fun keepsRig ↦ (quiet keepsRig).toKeepsUnattached) _ on silent
      rfl

end

/-- Every command that attaches nothing keeps the property, however it ends. -/
theorem preserves_attachless (hosts : Hosts On K J)
    (steps : ∀ {I : Rig δ α n → Prop}, K I → Rig.KeepsSteps I fun _ ↦ True)
    (keeps : ∀ {I : Rig δ α n → Prop}, K I → Rig.KeepsUnattached I) (c : Command α n β)
    (on : ∀ k, c.track? = some k → On k) (unattached : c.attaches = false) :
    Preserves (perform c) J := by
  cases silent : c.handsOver with
  | false => exact hosts.preserves_unattached keeps c on silent unattached
  | true =>
    cases c with
    | succeed k =>
      exact hosts.onRig (on k rfl) fun keepsRig r h ↦
        (Stepper.succeed_keeps (steps keepsRig) h).mono (fun _ _ kept ↦ kept.1) fun _ _ h ↦ h.elim
    | step k stepper =>
      exact hosts.onEngine (on k rfl) fun keepsRig e h ↦ (Stepper.run_keeps (steps keepsRig)
        ((keeps keepsRig).adjust h (e.rig.track.setForwarding_adjusts true))).mono
          (fun _ _ kept ↦ kept.keeps) fun _ _ halted ↦ halted.2.keeps
    | _ => cases silent

/-- Every command to the tracks in question keeps the property, however it ends. -/
theorem preserves_perform (hosts : Hosts On Rig.KeepsCommands J) (c : Command α n β)
    (on : ∀ k, c.track? = some k → On k) : Preserves (perform c) J := by
  cases unattached : c.attaches with
  | false =>
    exact hosts.preserves_attachless Rig.KeepsCommands.toKeepsSteps
      (fun keeps ↦ keeps.toKeepsUnattached) c on unattached
  | true =>
    refine hosts.preserves_quiet Rig.KeepsCommands.toKeepsQuiet c on ?_
    cases c <;> first | rfl | cases unattached

end Hosts

/-- Every command keeps the property, however it ends. -/
theorem KeepsTracks.preserves_perform {J : Bench δ α n → Prop} (keeps : KeepsTracks J)
    (c : Command α n β) : Preserves (perform c) J :=
  Hosts.preserves_perform keeps c fun _ _ ↦ trivial

end Bench

end OperatingPoint
