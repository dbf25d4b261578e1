import OperatingPoint.Proofs.BenchStops
import OperatingPoint.Proofs.DeviceStates
import OperatingPoint.Proofs.Registered

/-!
# The order of loads

A device layer may rely on one thing: when it is asked for a Jacobian, the last residual that it was
asked for, by whichever track, was at the same solution and the same previous point, and it could
evaluate it.  A device layer that writes down its loads is `Logged`; `calls_ordered` says this of
every entry of its log, whatever has happened on a bench.

What carries the proof is that a residual that is valid for a track is the last one that the device
layer was asked for (`Rig.Lawful`), and that no track can make another one's residual valid
(`Rig.Loads`).
-/

set_option autoImplicit false

namespace OperatingPoint

open Step

/-! ## The log -/

/-- A load, as the device layer sees it. -/
inductive Device.Call (α : Type) where
  /-- A load of the residual, and whether the device layer could evaluate. -/
  | residual (x previous : Array α) (ok : Bool)
  | jacobian (x previous : Array α)

namespace Device.Call

variable {α : Type}

/-- The load of a residual: where, with which previous point, and whether it was good. -/
def residual? : Call α → Option (Array α × Array α × Bool)
  | residual x previous ok => some (x, previous, ok)
  | jacobian _ _ => none

/-- The last load of a residual, of a log that has the latest call first. -/
def lastResidual (calls : List (Call α)) : Option (Array α × Array α × Bool) :=
  calls.findSome? residual?

/-- Every Jacobian of a log was loaded after a good residual at the same solution and the same
previous point, with no other residual between them. -/
def Ordered : List (Call α) → Prop
  | [] => True
  | residual _ _ _ :: earlier => Ordered earlier
  | jacobian x previous :: earlier => lastResidual earlier = some (x, previous, true) ∧ Ordered earlier

theorem Ordered.jacobian_of_append {later earlier : List (Call α)} {x previous : Array α}
    (h : Ordered (later ++ jacobian x previous :: earlier)) :
    lastResidual earlier = some (x, previous, true) := by
  induction later with
  | nil => exact h.1
  | cons call rest ih =>
    cases call with
    | residual => exact ih h
    | jacobian => exact ih h.2

end Device.Call

open Device.Call (lastResidual Ordered)

/-- A device layer with a log of its loads, the latest first. -/
structure Logged (δ α : Type) where
  device : δ
  calls : List (Device.Call α) := []

variable {δ α : Type}

instance Logged.instDevice [Device δ α] : Device (Logged δ α) α where
  unknowns d := Device.unknowns d.device
  loadResidual d x previous buffer :=
    let load := Device.loadResidual d.device x previous buffer
    ⟨load.ok, load.buffer, load.device, .residual x.toArray previous.toArray load.ok :: d.calls⟩
  loadJacobian d x previous buffer :=
    let load := Device.loadJacobian d.device x previous buffer
    ⟨load.ok, load.buffer, load.device, .jacobian x.toArray previous.toArray :: d.calls⟩
  setParameter d name value :=
    let (taken, device) := Device.setParameter d.device name value
    (taken, { d with device := device })
  parameter? d := Device.parameter? d.device
  voltageUnknowns d := Device.voltageUnknowns d.device
  unknown? d := Device.unknown? d.device
  devicesConverged d := Device.devicesConverged d.device
  innerSolveFailed d := Device.innerSolveFailed d.device
  accept d x := { d with device := Device.accept d.device x }
  abandon d := { d with device := Device.abandon d.device }

variable [Scalar α] [DirectSolver α] {n : Nat}

/-! ## What one track does -/

namespace Rig

variable {r r' r'' : Rig (Logged δ α) α n}

/-- The loads that the device layer of a rig has seen. -/
def calls (r : Rig (Logged δ α) α n) : List (Device.Call α) := r.store.device.calls

/-- A rig between two computations, where a residual that is valid is the last that was loaded. -/
structure Lawful (r : Rig (Logged δ α) α n) : Prop where
  rest : r.AtRest
  ordered : Ordered r.calls
  residual : r.isValid .residual = true →
    lastResidual r.calls = some (r.track.x.toArray, r.store.previous.toArray, true)

/-- What a track does: it stays lawful, and if another track is still the owner of the residual,
then no residual was loaded. -/
structure Loads (r r' : Rig (Logged δ α) α n) : Prop where
  lawful : r'.Lawful
  id : r'.track.iterate.id = r.track.iterate.id
  spares : r.store.Spares r.track.iterate.id r'.store
  others : ∀ other, other ≠ r.track.iterate.id → r'.store.owners.of .residual = some other →
    lastResidual r'.calls = lastResidual r.calls

theorem Loads.refl (h : r.Lawful) : r.Loads r := ⟨h, rfl, .refl _ _, fun _ _ _ ↦ rfl⟩

theorem Loads.trans (h : r.Loads r') (h' : r'.Loads r'') : r.Loads r'' where
  lawful := h'.lawful
  id := h'.id.trans h.id
  spares := h.spares.trans (h.id ▸ h'.spares)
  others other ne owned := by
    have ne' : other ≠ r'.track.iterate.id := h.id ▸ ne
    rw [h'.others other ne' owned]
    exact h.others other ne (h'.spares.others .residual other ne' owned).1

/-- A change of the track alone. -/
theorem Lawful.setUp (h : r.Lawful) {t : Track α n} (id : t.iterate.id = r.track.iterate.id)
    (rests : t.iterate.Rests) (kept : t.iterate.flags.residual = .valid →
      r.track.iterate.flags.residual = .valid ∧ t.iterate.x = r.track.iterate.x) :
    r.Loads { r with track := t } where
  lawful := by
    refine ⟨⟨h.rest.paired, rests⟩, h.ordered, fun valid ↦ ?_⟩
    obtain ⟨up, owned⟩ := isValid_iff.1 valid
    obtain ⟨up', same⟩ := kept up
    have old := h.residual (isValid_iff.2 ⟨up', owned.trans (congrArg some id)⟩)
    show lastResidual r.calls = some (t.iterate.x.toArray, _, true)
    rw [same]
    exact old
  id := id
  spares := .refl _ _
  others _ _ _ := rfl

/-- A change of the equations. -/
theorem Lawful.shift (h : r.Lawful) {t : Track α n} (shifts : r.track.Shifts t) :
    r.Loads { r with track := t } := by
  refine h.setUp shifts.id (shifts.rests h.rest.rests) fun up ↦ ?_
  rcases shifts.stale with rfl | stale
  · exact ⟨up, rfl⟩
  · rw [stale] at up
    cases up

/-- A change of the device layer other than a load. -/
theorem Lawful.setDevice (h : r.Lawful) (device : Logged δ α) (same : device.calls = r.calls) :
    r.Loads { r with store := { r.store with device := device } } where
  lawful := by
    refine ⟨⟨h.rest.paired, h.rest.rests⟩, ?_, fun valid ↦ ?_⟩
    · show Ordered device.calls
      rw [same]
      exact h.ordered
    · show lastResidual device.calls = _
      rw [same]
      exact h.residual valid
  id := rfl
  spares := .of_written [] true rfl rfl rfl rfl fun q ↦ by
    cases q <;> first | exact .inr rfl | exact .inr trivial
  others _ _ _ := congrArg lastResidual same

/-- A change of the store other than a load, that takes nothing but what is the iterate's. -/
theorem Lawful.setStore (h : r.Lawful) {s : Store (Logged δ α) α n} {flags : Flags}
    (spares : r.store.Spares r.track.iterate.id s) (device : s.device = r.store.device)
    (residual : s.owners.of .residual = r.store.owners.of .residual)
    (auxState : s.owners.of .auxState = r.store.owners.of .auxState)
    (up : flags.residual = r.track.iterate.flags.residual) (rests : flags.jacobian ≠ .computing) :
    r.Loads (r.put s { r.track.iterate with flags := flags } r.track.overlay) where
  lawful := by
    refine ⟨⟨?_, ?_, rests⟩, ?_, fun valid ↦ ?_⟩
    · show s.owners.of .auxState = s.owners.of .residual
      rw [auxState, residual]
      exact h.rest.paired
    · exact up ▸ h.rest.rests.residual
    · show Ordered s.device.calls
      rw [device]
      exact h.ordered
    · show lastResidual s.device.calls = some (r.track.iterate.x.toArray, s.previous.toArray, true)
      rw [device, spares.previous]
      obtain ⟨up', owned⟩ := isValid_iff.1 valid
      exact h.residual (isValid_iff.2 ⟨up.symm.trans up', residual.symm.trans owned⟩)
  id := rfl
  spares := spares
  others _ _ _ := congrArg (fun d : Logged δ α ↦ lastResidual d.calls) device

theorem computeNewton_loads (h : r.Lawful) (mayReuse : Bool) :
    Ends (computeNewton mayReuse) r (fun _ r' ↦ r.Loads r') (fun _ r' ↦ r.Loads r') := by
  refine .of_result (computeNewton_run r mayReuse) ?_ ?_
  · intro ok r' run
    cases run with
    | known => exact .refl h
    | solved _ _ _ run =>
      exact h.setStore (.afterSolve _ _ ((Workspace.ends_solve_options ..).ok run) _ _) rfl (by simp) (by simp) rfl
        h.rest.rests.jacobian
    | refused _ _ _ run =>
      exact h.setStore (.afterRefusal _ _ ((Workspace.ends_solve_options ..).error run)) rfl (by simp) (by simp) rfl
        h.rest.rests.jacobian
  · intro e r' run
    cases run with
    | noResidual => exact .refl h
    | noJacobian => exact .refl h
    | stopped _ _ _ _ run =>
      exact h.setStore (.withWorkspace _ _ ((Workspace.ends_solve_options ..).error run)) rfl rfl rfl rfl
        h.rest.rests.jacobian

theorem computeGradient_loads (h : r.Lawful) :
    Ends computeGradient r (fun _ r' ↦ r.Loads r') (fun _ r' ↦ r.Loads r') := by
  refine .of_result (computeGradient_run r) ?_ ?_
  · intro _ r' run
    cases run with
    | known => exact .refl h
    | computed =>
      exact h.setStore (.withGradient _ _ _) rfl (by simp) (by simp) rfl h.rest.rests.jacobian
  · intro e r' run
    cases run with
    | noJacobian => exact .refl h
    | noResidual => exact .refl h

variable [Device δ α]

/-- A load of the residual makes it the iterate's, or nobody's. -/
theorem Lawful.loadResidual (h : r.Lawful) {device : Logged δ α} (told : device.calls = r.calls)
    {load : Load (Logged δ α) (Vector α n)}
    (call : load = Device.loadResidual device r.track.x r.store.previous r.store.residual)
    {it : Iterate α n} {f : Vector α n} {overlay : Overlay α} (id : it.id = r.track.iterate.id)
    (x : it.x = r.track.iterate.x) (rests : it.Rests)
    (up : it.flags.residual = .valid → load.ok = true) :
    r.Loads (r.put { r.store.afterResidual r.track.iterate.id load with residual := f } it
      overlay) := by
  have calls : load.device.calls =
      .residual r.track.iterate.x.toArray r.store.previous.toArray load.ok :: r.calls := by
    subst call
    rw [← told]
    rfl
  refine ⟨⟨⟨Store.Paired.afterResidual load, rests⟩, ?_, fun valid ↦ ?_⟩, id,
    .afterResidual _ _ load f, fun other ne owned ↦ ?_⟩
  · show Ordered load.device.calls
    rw [calls]
    exact h.ordered
  · show lastResidual load.device.calls = some (it.x.toArray, r.store.previous.toArray, true)
    rw [calls, x, up (isValid_iff.1 valid).1]
    rfl
  · have owned : (r.store.afterResidual r.track.iterate.id load).owners.of .residual = some other :=
      owned
    rw [Store.afterResidual_owner, if_pos (.inl rfl)] at owned
    split at owned
    · exact absurd (Option.some.inj owned).symm ne
    · cases owned

/-- A load of the Jacobian where the residual is valid comes in its turn. -/
theorem Lawful.loadJacobian (h : r.Lawful) (valid : r.isValid .residual = true)
    {load : Load (Logged δ α) (Mat α n n)} (call : load = r.store.jacobianLoad r.track.x)
    {flags : Flags} {A : Mat α n n} {overlay : Overlay α}
    (up : flags.residual = r.track.iterate.flags.residual) (rests : flags.jacobian ≠ .computing) :
    r.Loads (r.put { r.store.afterJacobian r.track.iterate.id load with jacobian := A }
      { r.track.iterate with flags := flags } overlay) := by
  have calls : load.device.calls =
      .jacobian r.track.x.toArray r.store.previous.toArray :: r.calls := by
    subst call
    rfl
  have last : lastResidual load.device.calls = lastResidual r.calls := by
    rw [calls]
    rfl
  refine ⟨⟨⟨h.rest.paired.afterJacobian load, up ▸ h.rest.rests.residual, rests⟩, ?_, fun _ ↦ ?_⟩,
    rfl, .afterJacobian _ _ load A, fun _ _ _ ↦ last⟩
  · show Ordered load.device.calls
    rw [calls]
    exact ⟨h.residual valid, h.ordered⟩
  · exact last.trans (h.residual valid)

theorem computeResidual_loads (h : r.Lawful) :
    Ends computeResidual r (fun _ r' ↦ r.Loads r') (fun _ r' ↦ r.Loads r') := by
  have told := preserves_forward (K := fun d : Logged δ α ↦ d.calls = r.calls) (n := n)
    (fun same _ _ ↦ same) r.computing rfl
  have rests : (withoutResidual r.track.iterate).Rests := ⟨nofun, h.rest.rests.jacobian⟩
  refine .of_result (computeResidual_run r) ?_ ?_
  · intro ok r' run
    cases run with
    | known => exact .refl h
    | unloaded _ forwarded call failed =>
      exact h.loadResidual (told.ok forwarded) call rfl rfl ⟨nofun, h.rest.rests.jacobian⟩ nofun
    | loaded _ forwarded call good =>
      exact h.loadResidual (told.ok forwarded) call rfl rfl ⟨nofun, nofun⟩ fun _ ↦ good
  · intro e r' run
    cases run with
    | reentered => exact .refl h
    | refused _ forwarded =>
      have given := h.setDevice _ (told.error forwarded)
      exact given.trans (given.lawful.setUp rfl rests nofun)
    | stuck _ forwarded call =>
      exact h.loadResidual (told.ok forwarded) call rfl rfl rests nofun

theorem computeJacobian_loads (h : r.Lawful) :
    Ends computeJacobian r (fun _ r' ↦ r.Loads r') (fun _ r' ↦ r.Loads r') := by
  have outdated : Ends computeResidual r.outdated (fun _ r' ↦ r.Loads r')
      (fun _ r' ↦ r.Loads r') := by
    have given : r.Loads r.outdated := h.setUp rfl ⟨nofun, h.rest.rests.jacobian⟩ nofun
    exact (computeResidual_loads given.lawful).mono (fun _ _ loads ↦ given.trans loads)
      fun _ _ loads ↦ given.trans loads
  refine .of_result (computeJacobian_run r) ?_ ?_
  · intro ok r' run
    cases run with
    | known => exact .refl h
    | unrefreshed _ _ run => exact outdated.ok run
    | unloaded _ base call =>
      have loads := base.keeps (.refl h) fun _ ↦ outdated
      exact loads.trans (loads.lawful.loadJacobian base.spec.1 call rfl nofun)
    | loaded _ base call =>
      have loads := base.keeps (.refl h) fun _ ↦ outdated
      exact loads.trans (loads.lawful.loadJacobian base.spec.1 call rfl nofun)
  · intro e r' run
    cases run with
    | reentered => exact .refl h
    | refused _ _ run => exact outdated.error run
    | stuck _ base call =>
      have loads := base.keeps (.refl h) fun _ ↦ outdated
      exact loads.trans (loads.lawful.loadJacobian base.spec.1 call rfl nofun)

/-- What a command does to a track. -/
theorem keepsCommands_loads (r : Rig (Logged δ α) α n) : KeepsCommands fun r' ↦ r.Loads r' where
  rest h := h.lawful.rest
  move h x := h.trans (h.lawful.setUp rfl (.of_fresh rfl) nofun)
  residual h := (computeResidual_loads h.lawful).mono (fun _ _ loads ↦ h.trans loads)
    fun _ _ loads ↦ ⟨trivial, h.trans loads⟩
  jacobian h := (computeJacobian_loads h.lawful).mono (fun _ _ loads ↦ h.trans loads)
    fun _ _ loads ↦ ⟨trivial, h.trans loads⟩
  newton h _ mayReuse _ := (computeNewton_loads h.lawful mayReuse).mono
    (fun _ _ loads ↦ h.trans loads) fun _ _ loads ↦ ⟨trivial, h.trans loads⟩
  parameter h name value := h.trans (h.lawful.shift (Track.setParameter_shifts _ name value))
  accept {r'} h := by
    have given := h.trans
      (h.lawful.setDevice (Device.accept r'.store.device r'.track.x.toArray) rfl)
    exact given.trans (given.lawful.setUp rfl given.lawful.rest.rests fun up ↦ ⟨up, rfl⟩)
  abandon h := h.trans (h.lawful.setDevice _ rfl)
  pseudo h _ _ _ _ := h.trans (h.lawful.setUp rfl (Track.putPseudoTime_rests h.lawful.rest.rests _)
    fun up ↦ ⟨up, rfl⟩)
  shift h _ shifts := h.trans (h.lawful.shift shifts)
  derivatives h := h.trans (h.lawful.setUp rfl ⟨h.lawful.rest.rests.residual, nofun⟩
    fun up ↦ ⟨up, rfl⟩)
  gradient _ h := (computeGradient_loads h.lawful).mono (fun _ _ loads ↦ h.trans loads)
    fun _ _ loads ↦ h.trans loads
  give h _ _ := h.trans (h.lawful.setDevice _ rfl)

end Rig

/-! ## All tracks of a bench -/

namespace Bench

/-- The loads of a bench have come in order, and so will the next. -/
structure InOrder (b : Bench (Logged δ α) α n) : Prop where
  registered : b.Registered
  paired : b.store.Paired
  ordered : Ordered b.store.device.calls
  track : ∀ k t, b.Live k t → Rig.Lawful ⟨b.store, t⟩

namespace InOrder

variable {b : Bench (Logged δ α) α n} {k : Nat} {t : Track α n}

/-- A track that is left alone goes on as it was. -/
theorem spared (h : b.InOrder) (live : b.Live k t) {s : Store (Logged δ α) α n} {id : OwnerId}
    (paired : s.Paired) (ordered : Ordered s.device.calls) (spares : b.store.Spares id s)
    (other : t.iterate.id ≠ id) (last : s.owners.of .residual = some t.iterate.id →
      lastResidual s.device.calls = lastResidual b.store.device.calls) : Rig.Lawful ⟨s, t⟩ where
  rest := ⟨paired, (h.track k t live).rest.rests⟩
  ordered := ordered
  residual valid := by
    obtain ⟨up, owned⟩ := Rig.isValid_iff.1 valid
    have old := (h.track k t live).residual
      (Rig.isValid_iff.2 ⟨up, (spares.others .residual _ other owned).1⟩)
    show lastResidual s.device.calls = some (t.x.toArray, s.previous.toArray, true)
    rw [last owned, spares.previous]
    exact old

/-- A track does something. -/
theorem withEngine (h : b.InOrder) (live : b.Live k t) {e : Engine (Logged δ α) α n}
    (loads : Rig.Loads ⟨b.store, t⟩ e.rig) : (b.withEngine k e).InOrder where
  registered := h.registered.withEngine live loads.id loads.spares
  paired := loads.lawful.rest.paired
  ordered := loads.lawful.ordered
  track k' t' live' := by
    rcases live_replace live' with ⟨_, same⟩ | ⟨other, old⟩
    · cases same
      exact loads.lawful
    · have ne := h.registered.ne live old other
      exact h.spared old loads.lawful.rest.paired loads.lawful.ordered loads.spares ne
        (loads.others _ ne)

/-- A track comes up, and no load with it. -/
theorem push (h : b.InOrder) {s : Store (Logged δ α) α n} (lawful : Rig.Lawful ⟨s, t⟩)
    (id : t.iterate.id = b.store.lastId + 1) (lastId : s.lastId = b.store.lastId + 1)
    (spares : b.store.Spares t.iterate.id s) (device : s.device = b.store.device) :
    InOrder { b with store := s, tracks := b.tracks.push (some t) } where
  registered := h.registered.push id lastId spares
  paired := lawful.rest.paired
  ordered := lawful.ordered
  track k' t' live' := by
    rcases live_push live' with ⟨_, rfl⟩ | old
    · exact lawful
    · exact h.spared old lawful.rest.paired lawful.ordered spares
        (id ▸ h.registered.ne_next old) fun _ ↦ by rw [device]

theorem add (h : b.InOrder) (x : Vector α n) (overlay : Overlay α) : InOrder { b with
    store := b.store.register.2
    tracks := b.tracks.push (some { iterate := (Iterate.new b.store x).1, overlay := overlay }) } :=
  h.push ⟨⟨h.paired, .of_fresh rfl⟩, h.ordered,
    fun valid ↦ absurd valid (Iterate.not_isValid_of_stale rfl)⟩ rfl rfl (.register ..) rfl

theorem copy (h : b.InOrder) (live : b.Live k t) : InOrder { b with
    store := (t.deepClone b.store).2
    tracks := b.tracks.push (some (t.deepClone b.store).1) } := by
  have old := h.track k t live
  refine h.push ⟨⟨?_, old.rest.rests.residual, old.rest.rests.jacobian⟩, h.ordered, fun valid ↦ ?_⟩
    rfl rfl (Registered.spares_deepClone b t) rfl
  · exact Store.Paired.transfer (s := b.store.register.2) h.paired _
  · exact old.residual (h.registered.isValid_of_copy valid)

theorem retire (h : b.InOrder) (live : b.Live k t) :
    InOrder { b.replace k none with store := b.store.release t.iterate.id } where
  registered := h.registered.retire live
  paired := h.paired.release
  ordered := h.ordered
  track k' t' live' := by
    obtain ⟨other, old⟩ := live_of_retired live'
    exact h.spared old h.paired.release h.ordered (.release ..) (h.registered.ne live old other)
      fun _ ↦ rfl

theorem setPrevious (h : b.InOrder) (x : Vector α n) :
    InOrder { b with store := b.store.setPrevious x } where
  registered := h.registered.setPrevious x
  paired := .setPrevious x
  ordered := h.ordered
  track k' t' live' := by
    refine ⟨⟨.setPrevious x, (h.track k' t' live').rest.rests⟩, h.ordered, fun valid ↦ ?_⟩
    have owned := (Rig.isValid_iff.1 valid).2
    rw [Store.setPrevious_owner] at owned
    cases owned

end InOrder

variable [Device δ α]

theorem keepsTracks_inOrder : KeepsTracks (InOrder (δ := δ) (α := α) (n := n)) where
  track h k t _ live := ⟨_, .refl (h.track k t live), Rig.keepsCommands_loads _,
    fun _ loads ↦ h.withEngine live loads⟩
  beside h _ _ := ⟨⟨h.registered.known, h.registered.distinct, h.registered.owners⟩, h.paired,
    h.ordered, h.track⟩
  add h x overlay _ := h.add x overlay
  copy h _ _ live := h.copy live
  retire h _ _ live := h.retire live
  setPrevious h x := h.setPrevious x

/-- **Loads come in order.**  Any number of tracks at one store, and any history of commands to them,
whatever of it failed: each time the device layer is asked for a Jacobian, the last residual that it
was asked for was at the same solution and the same previous point, and it could evaluate it. -/
theorem calls_ordered (device : δ) (communicator : Communicator α) (linear : LinearOptions α)
    (newton : Newton α) (history : List (Request α n)) :
    let b := run (empty (⟨device, []⟩ : Logged δ α) communicator linear newton n) history
    ∀ later earlier x previous, b.store.device.calls = later ++ .jacobian x previous :: earlier →
      lastResidual earlier = some (x, previous, true) := by
  intro b later earlier x previous calls
  have inOrder : b.InOrder := run_preserves
    ⟨empty_registered _ _ _ _, rfl, trivial, fun _ _ live ↦ by cases live⟩
    fun request _ ↦ keepsTracks_inOrder.preserves_perform request.2
  have ordered := inOrder.ordered
  rw [calls] at ordered
  exact ordered.jacobian_of_append

-- A residual that another track has loaded in between is loaded again before the Jacobian.
example :
    let newton : Newton Float := { battery := .new .serial .standard {} false }
    let history : List (Request Float 1) := [⟨_, .add #[0.0]⟩, ⟨_, .add #[1.0]⟩,
      ⟨_, .computeResidual 0⟩, ⟨_, .computeResidual 1⟩, ⟨_, .computeJacobian 0⟩]
    (run (empty (⟨Circuit.bare, []⟩ : Logged Circuit Float) .serial .standard newton 1)
      history).store.device.calls.map (fun call ↦ call.residual?.isSome) =
        [false, true, true, true] := by
  decide +kernel

end Bench

end OperatingPoint
