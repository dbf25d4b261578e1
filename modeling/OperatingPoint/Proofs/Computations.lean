import OperatingPoint.Proofs.Validity

/-!
# What a computation of a rig can come to

A computation looks at flags and owners, calls the device layer and the linear solver, and notes the
result in the flags.  For each of the four there is an inductive predicate on results with one
constructor for each way that the computation can go, and a theorem that there is no other way.

What is proved about computations elsewhere is proved by cases on these predicates; the programs
themselves are opened here only.
-/

set_option autoImplicit false

namespace OperatingPoint

open Step

/-- A fault that is raised in forwarding parameters: there is nobody to take the parameter, or the
device layer refuses it. -/
inductive Stop.InForwarding : Stop → Prop
  | dispatch (cause : DispatchFault) : InForwarding (.fault (.dispatch cause))
  | rejected (parameter : String) : InForwarding (.fault (.config (.rejected parameter)))

theorem Overlay.setProgress_error {α : Type} [Scalar α] {o : Overlay α} {value : α} {cause : Fault}
    (h : o.setProgress value = .error cause) : Stop.InForwarding (.fault cause) := by
  unfold setProgress at h
  split at h
  · rename_i a _
    cases a <;> cases h <;> exact .dispatch _
  · cases h
    exact .dispatch _

theorem Overlay.setBlend_error {α : Type} [Scalar α] {o : Overlay α} {value : α} {cause : Fault}
    (h : o.setBlend value = .error cause) : Stop.InForwarding (.fault cause) := by
  unfold setBlend at h
  split at h
  · cases h
  · cases h
    exact .dispatch _

namespace Rig

variable {δ α : Type} [Scalar α] [DirectSolver α] {n : Nat}

/-- The rig with another store, iterate and overlay. -/
def put (r : Rig δ α n) (s : Store δ α n) (it : Iterate α n) (o : Overlay α) : Rig δ α n :=
  { store := s, track := { r.track with iterate := it, overlay := o } }

@[simp] theorem put_store (r : Rig δ α n) (s : Store δ α n) (it : Iterate α n) (o : Overlay α) :
    (r.put s it o).store = s := rfl

@[simp] theorem put_iterate (r : Rig δ α n) (s : Store δ α n) (it : Iterate α n) (o : Overlay α) :
    (r.put s it o).track.iterate = it := rfl

/-- The rig with other flags. -/
def mark (r : Rig δ α n) (flags : Flags) : Rig δ α n :=
  r.put r.store { r.track.iterate with flags := flags } r.track.overlay

@[simp] theorem ends_modifyTrack {change : Track α n → Track α n} {r : Rig δ α n}
    {done : PUnit → Rig δ α n → Prop} {stopped : Stop → Rig δ α n → Prop} :
    Ends (modifyTrack change) r done stopped ↔ done ⟨⟩ { r with track := change r.track } := Iff.rfl

@[simp] theorem ends_modifyIterate {change : Iterate α n → Iterate α n} {r : Rig δ α n}
    {done : PUnit → Rig δ α n → Prop} {stopped : Stop → Rig δ α n → Prop} :
    Ends (modifyIterate change) r done stopped ↔
      done ⟨⟩ (r.put r.store (change r.track.iterate) r.track.overlay) := Iff.rfl

@[simp] theorem ends_modifyFlags {change : Flags → Flags} {r : Rig δ α n}
    {done : PUnit → Rig δ α n → Prop} {stopped : Stop → Rig δ α n → Prop} :
    Ends (modifyFlags change) r done stopped ↔
      done ⟨⟩ (r.mark (change r.track.iterate.flags)) := Iff.rfl

@[simp] theorem ends_onStore {β : Type} {act : Step (Store δ α n) β} {r : Rig δ α n}
    {done : β → Rig δ α n → Prop} {stopped : Stop → Rig δ α n → Prop} :
    Ends (onStore act) r done stopped ↔
      Ends act r.store (fun b s ↦ done b (r.put s r.track.iterate r.track.overlay))
        (fun e s ↦ stopped e (r.put s r.track.iterate r.track.overlay)) := ends_zoom

@[simp] theorem ends_measure {r : Rig δ α n} {done : PUnit → Rig δ α n → Prop}
    {stopped : Stop → Rig δ α n → Prop} :
    Ends measure r done stopped ↔
      done ⟨⟩ (r.put r.store { r.track.iterate with
        measured := .norms (r.store.communicator.normsOf r.store.residual.toArray) }
        r.track.overlay) := Iff.rfl

section

variable [Device δ α]

/-! ## Forwarding

Forwarding parameters changes the device layer and the overlay and nothing else. -/

/-- The rig with another device layer and another overlay. -/
def relay (r : Rig δ α n) (device : δ) (overlay : Overlay α) : Rig δ α n :=
  r.put { r.store with device := device } r.track.iterate overlay

theorem ends_forwardOne (name : String) (value : α) (r : Rig δ α n) :
    Ends (forwardOne name value) r (fun _ r' ↦ ∃ device overlay, r' = r.relay device overlay)
      (fun e r' ↦ e.InForwarding ∧ ∃ device overlay, r' = r.relay device overlay) := by
  unfold forwardOne giveToDevice
  simp only [ends_bind, ends_get, ends_set, ends_ite, ends_orFault, ends_pure, ends_fault]
  refine ⟨fun _ ↦ ⟨fun overlay _ ↦ ⟨_, overlay, rfl⟩, fun cause h ↦ ⟨?_, _, _, rfl⟩⟩, fun _ ↦
    ⟨fun _ ↦ ⟨_, _, rfl⟩, fun _ ↦ ⟨.rejected name, _, _, rfl⟩⟩⟩
  split at h
  · exact Overlay.setProgress_error h
  · exact Overlay.setBlend_error h

theorem ends_forwardAll (entries : List (String × α)) (r : Rig δ α n) :
    Ends (forwardAll entries) r (fun _ r' ↦ ∃ device overlay, r' = r.relay device overlay)
      (fun e r' ↦ e.InForwarding ∧ ∃ device overlay, r' = r.relay device overlay) := by
  induction entries generalizing r with
  | nil => exact ⟨_, _, rfl⟩
  | cons entry rest ih =>
    rw [forwardAll, ends_bind]
    refine (ends_forwardOne entry.1 entry.2 r).mono ?_ fun _ _ h ↦ h
    rintro _ _ ⟨device, overlay, rfl⟩
    exact ih (r.relay device overlay)

theorem ends_forward (r : Rig δ α n) :
    Ends forward r (fun _ r' ↦ ∃ device overlay, r' = r.relay device overlay)
      (fun e r' ↦ r.track.overlay.forwarding = true ∧ e.InForwarding ∧
        ∃ device overlay, r' = r.relay device overlay) := by
  unfold forward
  simp only [ends_bind, ends_get, ends_ite, ends_pure]
  refine ⟨fun on ↦ ?_, fun _ ↦ ⟨_, _, rfl⟩⟩
  exact (ends_forwardAll _ r).mono (fun _ _ h ↦ h) fun _ _ h ↦ ⟨on, h⟩

/-! ## The residual -/

/-- The rig while it computes the residual. -/
def computing (r : Rig δ α n) : Rig δ α n :=
  r.mark { r.track.iterate.flags with residual := .computing }

/-- The iterate without a residual. -/
def withoutResidual (it : Iterate α n) : Iterate α n :=
  { it with flags := { it.flags with residual := .stale } }

/-- What computing the residual can come to. -/
inductive ResidualRun (r : Rig δ α n) : EStateM.Result Stop (Rig δ α n) Bool → Prop
  /-- It is there already. -/
  | known (valid : r.isValid .residual = true) : ResidualRun r (.ok true r)
  | reentered (invalid : r.isValid .residual = false)
    (busy : r.track.iterate.flags.residual = .computing) :
    ResidualRun r (.error (.fault (.reentrant "residual")) r)
  /-- A parameter found no taker. -/
  | refused (invalid : r.isValid .residual = false) {e : Stop} {device : δ} {overlay : Overlay α}
    (forwarded : forward r.computing = .error e (r.computing.relay device overlay)) :
    ResidualRun r (.error e
      (r.put { r.store with device := device } (withoutResidual r.track.iterate) overlay))
  /-- The device layer could not evaluate. -/
  | unloaded (invalid : r.isValid .residual = false) {device : δ} {overlay : Overlay α}
    (forwarded : forward r.computing = .ok () (r.computing.relay device overlay))
    {load : Load δ (Vector α n)}
    (call : load = Device.loadResidual device r.track.x r.store.previous r.store.residual)
    (failed : load.ok = false) :
    ResidualRun r (.ok false
      (r.put (r.store.afterResidual r.track.iterate.id load)
        { withoutResidual r.track.iterate with measured := .failed } overlay))
  /-- The overlay broke a promise about lengths. -/
  | stuck (invalid : r.isValid .residual = false) {device : δ} {overlay : Overlay α}
    (forwarded : forward r.computing = .ok () (r.computing.relay device overlay))
    {load : Load δ (Vector α n)}
    (call : load = Device.loadResidual device r.track.x r.store.previous r.store.residual)
    (good : load.ok = true) {e : Stop}
    (augmented : overlay.augmentResidual r.track.x load.buffer = .error e) :
    ResidualRun r (.error e
      (r.put (r.store.afterResidual r.track.iterate.id load) (withoutResidual r.track.iterate)
        overlay))
  | loaded (invalid : r.isValid .residual = false) {device : δ} {overlay overlay' : Overlay α}
    (forwarded : forward r.computing = .ok () (r.computing.relay device overlay))
    {load : Load δ (Vector α n)}
    (call : load = Device.loadResidual device r.track.x r.store.previous r.store.residual)
    (good : load.ok = true) {f : Vector α n}
    (augmented : overlay.augmentResidual r.track.x load.buffer = .ok (overlay', f)) :
    ResidualRun r (.ok true
      (r.put { r.store.afterResidual r.track.iterate.id load with residual := f }
        { r.track.iterate with
          flags := { residual := .valid }
          measured := .norms (r.store.communicator.normsOf f.toArray) }
        overlay'))

theorem ends_loadResidual {r : Rig δ α n} {done : Bool → Rig δ α n → Prop}
    {stopped : Stop → Rig δ α n → Prop} :
    Ends loadResidual r done stopped ↔ Ends forward r (fun _ t ↦
      ((t.store.residualLoad t.track.x).ok = true →
        (∀ overlay f, t.track.overlay.augmentResidual t.track.x
            (t.store.residualLoad t.track.x).buffer = .ok (overlay, f) →
          done true (t.put
            { t.store.afterResidual t.track.iterate.id (t.store.residualLoad t.track.x) with
              residual := f }
            { t.track.iterate with
              measured := .norms (t.store.communicator.normsOf f.toArray) } overlay)) ∧
        ∀ e, t.track.overlay.augmentResidual t.track.x
            (t.store.residualLoad t.track.x).buffer = .error e →
          stopped e (t.put
            (t.store.afterResidual t.track.iterate.id (t.store.residualLoad t.track.x))
            t.track.iterate t.track.overlay)) ∧
      ((t.store.residualLoad t.track.x).ok = false →
        done false (t.put
          (t.store.afterResidual t.track.iterate.id (t.store.residualLoad t.track.x))
          { t.track.iterate with measured := .failed } t.track.overlay))) stopped := by
  unfold loadResidual
  simp only [ends_bind, ends_get, ends_ite, ends_onStore, Store.ends_loadResidual, ends_pure,
    ends_modifyTrack, ends_modifyIterate, ends_measure]
  refine Ends.congr fun _ t ↦ ?_
  rw [Bool.not_eq_true]
  refine and_congr (forall_congr' fun good ↦ ?_) Iff.rfl
  exact Store.ends_editResidual (by simp [good])

theorem computeResidual_run (r : Rig δ α n) : ResidualRun r (computeResidual r) := by
  refine Ends.result ?_
  unfold computeResidual
  simp only [ends_bind, ends_get, ends_ite, ends_fault, ends_attempt, ends_pure, ends_modifyFlags]
  refine ⟨.known, fun invalid ↦ ?_⟩
  rw [Bool.not_eq_true] at invalid
  refine ⟨.reentered invalid, fun _ ↦ ?_⟩
  rw [ends_loadResidual]
  cases run : forward r.computing with
  | error e r' =>
    obtain ⟨_, _, device, overlay, rfl⟩ := (ends_forward r.computing).error run
    exact (ends_of_error run).2 (.refused invalid run)
  | ok u r' =>
    obtain ⟨device, overlay, rfl⟩ := (ends_forward r.computing).ok run
    refine (ends_of_ok run).2 ⟨fun good ↦ ⟨fun overlay' f augmented ↦ ?_, fun e augmented ↦ ?_⟩,
      fun failed ↦ ?_⟩
    · exact .loaded invalid run rfl good augmented
    · exact .stuck invalid run rfl good augmented
    · exact .unloaded invalid run rfl failed

/-- Once it has been computed the residual is valid, unless it could not be loaded. -/
theorem ResidualRun.valid {r r' : Rig δ α n} {ok : Bool} (run : ResidualRun r (.ok ok r')) :
    r'.isValid .residual = ok := by
  cases run with
  | known valid => exact valid
  | unloaded => exact Bool.eq_false_iff.2 (Iterate.not_isValid_of_stale (q := .residual) rfl)
  | loaded _ _ _ good =>
    rw [isValid_iff]
    simp [Flags.of, good]

/-! ## The Jacobian -/

/-- The rig with its residual given up. -/
def outdated (r : Rig δ α n) : Rig δ α n :=
  r.put r.store (withoutResidual r.track.iterate) r.track.overlay

/-- The rig at which a Jacobian is loaded: what the last residual load left in the device layer
belongs to the iterate, at its solution. -/
inductive Refreshed (r : Rig δ α n) : Rig δ α n → Prop
  | already (valid : r.isValid .residual = true)
    (owned : r.store.owners.of .auxState = some r.track.iterate.id) : Refreshed r r
  | renewed (needed : r.isValid .residual = false ∨
      r.store.owners.of .auxState ≠ some r.track.iterate.id) {r' : Rig δ α n}
    (run : computeResidual r.outdated = .ok true r') : Refreshed r r'

/-- What computing the Jacobian can come to. -/
inductive JacobianRun (r : Rig δ α n) : EStateM.Result Stop (Rig δ α n) Bool → Prop
  /-- It is there already. -/
  | known (valid : r.isValid .jacobian = true) : JacobianRun r (.ok true r)
  | reentered (invalid : r.isValid .jacobian = false)
    (busy : r.track.iterate.flags.jacobian = .computing) :
    JacobianRun r (.error (.fault (.reentrant "jacobian")) r)
  /-- There is no residual to go with it. -/
  | unrefreshed (invalid : r.isValid .jacobian = false)
    (needed : r.isValid .residual = false ∨
      r.store.owners.of .auxState ≠ some r.track.iterate.id) {r' : Rig δ α n}
    (run : computeResidual r.outdated = .ok false r') : JacobianRun r (.ok false r')
  /-- Computing the residual that goes with it stopped. -/
  | refused (invalid : r.isValid .jacobian = false)
    (needed : r.isValid .residual = false ∨
      r.store.owners.of .auxState ≠ some r.track.iterate.id) {e : Stop} {r' : Rig δ α n}
    (run : computeResidual r.outdated = .error e r') : JacobianRun r (.error e r')
  /-- The device layer could not evaluate. -/
  | unloaded (invalid : r.isValid .jacobian = false) {r' : Rig δ α n} (base : Refreshed r r')
    {load : Load δ (Mat α n n)} (call : load = r'.store.jacobianLoad r'.track.x)
    (failed : load.ok = false) :
    JacobianRun r (.ok false
      (r'.put (r'.store.afterJacobian r'.track.iterate.id load)
        { r'.track.iterate with flags := { residual := r'.track.iterate.flags.residual } }
        r'.track.overlay))
  /-- The overlay broke a promise about lengths. -/
  | stuck (invalid : r.isValid .jacobian = false) {r' : Rig δ α n} (base : Refreshed r r')
    {load : Load δ (Mat α n n)} (call : load = r'.store.jacobianLoad r'.track.x)
    (good : load.ok = true) {e : Stop}
    (augmented : r'.track.overlay.augmentJacobian (r'.store.jacobianLoads + 1) load.buffer =
      .error e) :
    JacobianRun r (.error e
      (r'.put (r'.store.afterJacobian r'.track.iterate.id load)
        { r'.track.iterate with flags := { residual := r'.track.iterate.flags.residual } }
        r'.track.overlay))
  | loaded (invalid : r.isValid .jacobian = false) {r' : Rig δ α n} (base : Refreshed r r')
    {load : Load δ (Mat α n n)} (call : load = r'.store.jacobianLoad r'.track.x)
    (good : load.ok = true) {overlay : Overlay α} {A : Mat α n n}
    (augmented : r'.track.overlay.augmentJacobian (r'.store.jacobianLoads + 1) load.buffer =
      .ok (overlay, A)) :
    JacobianRun r (.ok true
      (r'.put { r'.store.afterJacobian r'.track.iterate.id load with jacobian := A }
        { r'.track.iterate with
          flags := { residual := r'.track.iterate.flags.residual, jacobian := .valid } }
        overlay))

/-- A residual that was computed anew is the iterate's, and so is the auxiliary state. -/
theorem Refreshed.spec {r r' : Rig δ α n} (h : Refreshed r r') :
    r'.isValid .residual = true ∧ r'.store.owners.of .auxState = some r'.track.iterate.id := by
  cases h with
  | already valid owned => exact ⟨valid, owned⟩
  | renewed needed run =>
    have h := computeResidual_run r.outdated
    rw [run] at h
    refine ⟨h.valid, ?_⟩
    cases h with
    | known valid =>
      rw [isValid_iff] at valid
      cases valid.1
    | loaded _ _ _ good => simp [outdated, withoutResidual, good]

/-- What holds of a rig, and of any whose residual was computed anew. -/
theorem Refreshed.keeps {r r' : Rig δ α n} (base : Refreshed r r') {K : Rig δ α n → Prop}
    {stopped : Stop → Rig δ α n → Prop} (h : K r)
    (renewed : r.isValid .residual = false ∨
        r.store.owners.of .auxState ≠ some r.track.iterate.id →
      Ends computeResidual r.outdated (fun _ r' ↦ K r') stopped) : K r' := by
  cases base with
  | already => exact h
  | renewed needed run => exact (renewed needed).ok run

/-- Loading the Jacobian where the device state is the iterate's own. -/
theorem ends_loadJacobian {r : Rig δ α n} {done : Bool → Rig δ α n → Prop}
    {stopped : Stop → Rig δ α n → Prop}
    (h : r.store.owners.of .auxState = some r.track.iterate.id) :
    Ends loadJacobian r done stopped ↔
      ((r.store.jacobianLoad r.track.x).ok = true →
        (∀ overlay A, r.track.overlay.augmentJacobian (r.store.jacobianLoads + 1)
            (r.store.jacobianLoad r.track.x).buffer = .ok (overlay, A) →
          done true (r.put
            { r.store.afterJacobian r.track.iterate.id (r.store.jacobianLoad r.track.x) with
              jacobian := A } r.track.iterate overlay)) ∧
        ∀ e, r.track.overlay.augmentJacobian (r.store.jacobianLoads + 1)
            (r.store.jacobianLoad r.track.x).buffer = .error e →
          stopped e (r.put
            (r.store.afterJacobian r.track.iterate.id (r.store.jacobianLoad r.track.x))
            r.track.iterate r.track.overlay)) ∧
      ((r.store.jacobianLoad r.track.x).ok = false →
        done false (r.put
          (r.store.afterJacobian r.track.iterate.id (r.store.jacobianLoad r.track.x))
          r.track.iterate r.track.overlay)) := by
  unfold loadJacobian
  simp only [ends_bind, ends_get, ends_ite, ends_onStore, Store.ends_loadJacobian, ends_pure,
    ends_modifyTrack, h, Bool.not_eq_true, true_implies, not_true, false_implies, and_true, ne_eq]
  refine and_congr (forall_congr' fun good ↦ ?_) Iff.rfl
  exact Store.ends_editJacobian (by simp [good])

private theorem jacobianRun_of_refreshed {r r' : Rig δ α n} (invalid : r.isValid .jacobian = false)
    (base : Refreshed r r') :
    Ends loadJacobian
      (r'.mark { r'.track.iterate.flags with jacobian := .computing })
      (fun ok t ↦ JacobianRun r (.ok ok (t.mark
        { residual := t.track.iterate.flags.residual, jacobian := if ok then .valid else .stale })))
      (fun e t ↦ JacobianRun r (.error e (t.mark
        { residual := t.track.iterate.flags.residual }))) := by
  let loading := r'.mark { r'.track.iterate.flags with jacobian := .computing }
  have owned : loading.store.owners.of .auxState = some loading.track.iterate.id := base.spec.2
  refine (ends_loadJacobian owned).2 ⟨fun good ↦ ⟨fun overlay A augmented ↦ ?_,
    fun e augmented ↦ ?_⟩, fun failed ↦ ?_⟩
  · exact .loaded invalid base rfl good augmented
  · exact .stuck invalid base rfl good augmented
  · exact .unloaded invalid base rfl failed

theorem computeJacobian_run (r : Rig δ α n) : JacobianRun r (computeJacobian r) := by
  refine Ends.result ?_
  unfold computeJacobian
  simp only [ends_bind, ends_get, ends_ite, ends_fault, ends_attempt, ends_pure, ends_modifyFlags,
    Store.owns_iff, Bool.or_eq_true, Bool.not_eq_true', Store.owns_eq_false_iff]
  refine ⟨.known, fun invalid ↦ ?_⟩
  rw [Bool.not_eq_true] at invalid
  refine ⟨.reentered invalid, fun _ ↦ ⟨fun needed ↦ ?_, fun unneeded ↦ ?_⟩⟩
  · -- The residual is computed first; after that the device state is the iterate's own.
    refine Ends.of_result (R := fun result ↦ computeResidual r.outdated = result) rfl
      (fun ok r' run ↦ ?_) fun e r' run ↦ .refused invalid needed run
    cases ok with
    | false => exact ⟨fun h ↦ Bool.noConfusion h, fun _ ↦ .unrefreshed invalid needed run⟩
    | true =>
      have base : Refreshed r r' := .renewed needed run
      refine ⟨fun _ ↦ ⟨fun _ ↦ ?_, fun h ↦ absurd base.spec.2 h⟩, fun h ↦ absurd rfl h⟩
      refine (jacobianRun_of_refreshed invalid base).mono (fun ok t h ↦ ?_) fun e t h ↦ h
      cases ok <;> exact h
  · rw [not_or, Bool.not_eq_false, Classical.not_not] at unneeded
    refine ⟨fun _ ↦ ?_, fun h ↦ absurd unneeded.2 h⟩
    have base : Refreshed r r := .already unneeded.1 unneeded.2
    refine (jacobianRun_of_refreshed invalid base).mono (fun ok t h ↦ ?_) fun e t h ↦ h
    cases ok <;> exact h

end

/-! ## The Newton direction -/

/-- Whether a solve for the Newton direction uses the factors at hand. -/
def reuses (r : Rig δ α n) (mayReuse : Bool) : Bool :=
  mayReuse && r.store.factorsCurrentFor r.track.iterate.id

/-- The iterate with another flag for the Newton direction. -/
def withNewton (it : Iterate α n) (flag : Validity) : Iterate α n :=
  { it with flags := { it.flags with newton := flag } }

/-- What computing the Newton direction can come to. -/
inductive NewtonRun (r : Rig δ α n) (mayReuse : Bool) :
    EStateM.Result Stop (Rig δ α n) Bool → Prop
  /-- It is there already. -/
  | known (valid : r.isValid .newton = true) : NewtonRun r mayReuse (.ok true r)
  | noResidual (invalid : r.isValid .newton = false) (h : r.isValid .residual = false) :
    NewtonRun r mayReuse (.error (.fault (.prerequisite .newton .residual)) r)
  | noJacobian (invalid : r.isValid .newton = false) (ready : r.isValid .residual = true)
    (h : r.reuses mayReuse = false) (h' : r.isValid .jacobian = false) :
    NewtonRun r mayReuse (.error (.fault (.prerequisite .newton .jacobian)) r)
  /-- The linear solve came to its end. -/
  | solved (invalid : r.isValid .newton = false) (ready : r.isValid .residual = true)
    (ready' : r.reuses mayReuse = true ∨ r.isValid .jacobian = true)
    {x : Vector α n} {stats : SolveStats α} {w : Workspace α}
    (run : r.store.linearSolve (r.reuses mayReuse) = .ok (x, stats) w) :
    NewtonRun r mayReuse (.ok (r.store.accepts x stats)
      (r.put (r.store.afterSolve r.track.iterate.id w x stats)
        (withNewton r.track.iterate (if r.store.accepts x stats then .valid else .stale))
        r.track.overlay))
  /-- The linear solve ended in a fault. -/
  | refused (invalid : r.isValid .newton = false) (ready : r.isValid .residual = true)
    (ready' : r.reuses mayReuse = true ∨ r.isValid .jacobian = true)
    {cause : Fault} {w : Workspace α}
    (run : r.store.linearSolve (r.reuses mayReuse) = .error (.fault cause) w) :
    NewtonRun r mayReuse (.ok false
      (r.put (r.store.afterRefusal w) (withNewton r.track.iterate .stale) r.track.overlay))
  | stopped (invalid : r.isValid .newton = false) (ready : r.isValid .residual = true)
    (ready' : r.reuses mayReuse = true ∨ r.isValid .jacobian = true)
    {e : Stop} {w : Workspace α} (h : ∀ cause, e ≠ .fault cause)
    (run : r.store.linearSolve (r.reuses mayReuse) = .error e w) :
    NewtonRun r mayReuse (.error e
      (r.put { r.store with workspace := w } (withNewton r.track.iterate .stale) r.track.overlay))

theorem computeNewton_run (r : Rig δ α n) (mayReuse : Bool) :
    NewtonRun r mayReuse (computeNewton mayReuse r) := by
  refine Ends.result ?_
  unfold computeNewton
  simp only [ends_bind, ends_get, ends_ite, ends_fault, ends_attempt, ends_pure, ends_modifyFlags,
    ends_onStore]
  rw [← reuses]
  refine ⟨.known, fun invalid ↦ ?_⟩
  rw [Bool.not_eq_true] at invalid
  refine ⟨fun ready ↦ ⟨fun ready' ↦ ?_, fun h ↦ ?_⟩, fun h ↦ ?_⟩
  · rw [Bool.or_eq_true] at ready'
    have same : (r.reuses mayReuse && r.store.factorsCurrentFor r.track.iterate.id) =
        r.reuses mayReuse := by
      rw [reuses, Bool.and_assoc, Bool.and_self]
    refine Ends.of_result
      (Store.solveNewton_run r.store r.track.iterate.id (r.reuses mayReuse)) ?_ ?_
    · intro ok s run
      cases run with
      | solved _ _ run =>
        rw [same] at run
        exact .solved invalid ready ready' run
      | refused run =>
        rw [same] at run
        exact .refused invalid ready ready' run
    · intro e s run
      cases run with
      | noResidual h => exact absurd (isValid_iff.1 ready).2 h
      | noJacobian h h' =>
        rw [same] at h
        rcases ready' with ready' | ready'
        · rw [h] at ready'
          cases ready'
        · exact absurd (isValid_iff.1 ready').2 h'
      | stopped h run =>
        rw [same] at run
        exact .stopped invalid ready ready' h run
  · rw [Bool.not_eq_true, Bool.or_eq_false_iff] at h
    exact .noJacobian invalid ready h.1 h.2
  · rw [Bool.not_eq_true] at h
    exact .noResidual invalid h

/-- Of what a residual goes by nothing has changed, and nothing of the residual. -/
structure Redirects (r r' : Rig δ α n) : Prop where
  overlay : r'.track.overlay = r.track.overlay
  x : r'.track.iterate.x = r.track.iterate.x
  generation : r'.track.iterate.generation = r.track.iterate.generation
  device : r'.store.device = r.store.device
  previous : r'.store.previous = r.store.previous
  residual : r'.store.residual = r.store.residual
  valid : r'.isValid .residual = r.isValid .residual

theorem Redirects.refl (r : Rig δ α n) : r.Redirects r :=
  ⟨rfl, rfl, rfl, rfl, rfl, rfl, rfl⟩

/-- However a linear solve ends, it is the direction that changes. -/
theorem computeNewton_redirects (r : Rig δ α n) (mayReuse : Bool) :
    Ends (computeNewton mayReuse) r (fun _ r' ↦ r.Redirects r') (fun _ r' ↦ r.Redirects r') := by
  have redirects : ∀ {s : Store δ α n} {flag : Validity}, s.device = r.store.device →
      s.previous = r.store.previous → s.residual = r.store.residual →
      s.owners.of .residual = r.store.owners.of .residual →
      r.Redirects (r.put s (withNewton r.track.iterate flag) r.track.overlay) := by
    intro s flag device previous residual owner
    refine ⟨rfl, rfl, rfl, device, previous, residual, ?_⟩
    rw [Bool.eq_iff_iff, isValid_iff, isValid_iff]
    show _ ∧ s.owners.of .residual = _ ↔ _
    rw [owner]
    rfl
  refine .of_result (computeNewton_run r mayReuse) ?_ ?_
  · intro ok r' run
    cases run with
    | known => exact .refl r
    | solved => exact redirects rfl rfl rfl (by simp)
    | refused => exact redirects rfl rfl rfl (by simp)
  · intro e r' run
    cases run with
    | noResidual => exact .refl r
    | noJacobian => exact .refl r
    | stopped => exact redirects rfl rfl rfl rfl

/-! ## The gradient -/

/-- What computing the gradient can come to. -/
inductive GradientRun (r : Rig δ α n) : EStateM.Result Stop (Rig δ α n) Unit → Prop
  /-- It is there already. -/
  | known (valid : r.isValid .gradient = true) : GradientRun r (.ok () r)
  | noJacobian (invalid : r.isValid .gradient = false) (h : r.isValid .jacobian = false) :
    GradientRun r (.error (.fault (.prerequisite .gradient .jacobian)) r)
  /-- The residual is another iterate's. -/
  | noResidual (invalid : r.isValid .gradient = false) (ready : r.isValid .jacobian = true)
    (h : r.store.owners.of .residual ≠ some r.track.iterate.id) :
    GradientRun r (.error (.fault (.prerequisite .gradient .residual)) r)
  | computed (invalid : r.isValid .gradient = false) (ready : r.isValid .jacobian = true)
    (ready' : r.store.owners.of .residual = some r.track.iterate.id) :
    GradientRun r (.ok () (r.put
      { r.store with
        gradient := r.store.jacobian.transposeMulVec r.store.residual
        owners := r.store.owners.putAll [.gradient] (some r.track.iterate.id) }
      { r.track.iterate with flags := { r.track.iterate.flags with gradient := .valid } }
      r.track.overlay))

theorem computeGradient_run (r : Rig δ α n) : GradientRun r (computeGradient r) := by
  refine Ends.result ?_
  unfold computeGradient Store.computeGradient
  simp only [ends_bind, ends_get, ends_ite, ends_fault, ends_pure, ends_modifyFlags, ends_onStore,
    ends_set]
  refine ⟨.known, fun invalid ↦ ?_⟩
  rw [Bool.not_eq_true] at invalid
  refine ⟨fun ready ↦ ?_, fun h ↦ .noJacobian invalid (by simpa using h)⟩
  simp only [List.forIn_cons, List.forIn_nil, ends_bind, ends_ite, ends_pure, ends_fault,
    Store.owns_iff]
  have owned := (isValid_iff.1 ready).2
  exact ⟨fun ready' ↦ ⟨fun _ ↦ .computed invalid ready ready', fun h ↦ absurd owned h⟩,
    fun h ↦ .noResidual invalid ready h⟩

end Rig

end OperatingPoint
