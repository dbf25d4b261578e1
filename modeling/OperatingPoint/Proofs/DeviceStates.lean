import OperatingPoint.Proofs.Computations

/-!
# The states of a device layer

The states that a device layer can come to are those that its loads leave, however they end, those
that parameters lead to, and those at the end of a point.  A rig changes its device layer in no other
way, so that what is known of all these states is known of the device layer at any time.
-/

set_option autoImplicit false

namespace OperatingPoint

open Step

variable {δ α : Type} [Device δ α] {layer device : δ}

/-- The states that a device layer can come to. -/
inductive Device.Reaches (layer : δ) : δ → Prop
  | refl : Reaches layer layer
  | residual {device : δ} (h : Reaches layer device) {n : Nat} (x previous buffer : Vector α n) :
    Reaches layer (Device.loadResidual device x previous buffer).device
  | jacobian {device : δ} (h : Reaches layer device) {n : Nat} (x previous : Vector α n)
    (buffer : Mat α n n) : Reaches layer (Device.loadJacobian device x previous buffer).device
  | parameter {device : δ} (h : Reaches layer device) (name : String) (value : α) :
    Reaches layer (Device.setParameter device name value).2
  | accept {device : δ} (h : Reaches layer device) (x : Array α) :
    Reaches layer (Device.accept device x)
  | abandon {device : δ} (h : Reaches layer device) : Reaches layer (Device.abandon device)

/-- Something that is known of a device layer, whatever is loaded from it and offered to it. -/
structure Device.Lasts (K : δ → Prop) : Prop where
  residual : ∀ {d : δ}, K d → ∀ {n : Nat} (x previous buffer : Vector α n),
    K (Device.loadResidual d x previous buffer).device
  jacobian : ∀ {d : δ}, K d → ∀ {n : Nat} (x previous : Vector α n) (buffer : Mat α n n),
    K (Device.loadJacobian d x previous buffer).device
  parameter : ∀ {d : δ}, K d → ∀ (name : String) (value : α),
    K (Device.setParameter d name value).2

theorem Device.lasts_reaches : Device.Lasts (α := α) (Device.Reaches layer) where
  residual h := .residual h
  jacobian h := .jacobian h
  parameter h := .parameter h

namespace Rig

variable [Scalar α] [DirectSolver α] {n : Nat} {r r' : Rig δ α n} {K : δ → Prop}

/-- The device layer of a rig is in a state that `layer` can come to. -/
def Holds (layer : δ) (r : Rig δ α n) : Prop := Device.Reaches layer r.store.device

/-- What is known of the device layer and stays so whatever values it is offered, forwarding keeps. -/
theorem preserves_forward
    (given : ∀ {d : δ}, K d → ∀ name value, K (Device.setParameter d name value).2) :
    Preserves (forward : Step (Rig δ α n) Unit) fun r ↦ K r.store.device := by
  have one : ∀ (name : String) (value : α),
      Preserves (forwardOne name value : Step (Rig δ α n) Unit) fun r ↦ K r.store.device := by
    intro name value r h
    unfold forwardOne giveToDevice
    simp only [ends_bind, ends_get, ends_set, ends_ite, ends_orFault, ends_pure, ends_fault]
    exact ⟨fun _ ↦ ⟨fun _ _ ↦ h, fun _ _ ↦ h⟩,
      fun _ ↦ ⟨fun _ ↦ given h name value, fun _ ↦ given h name value⟩⟩
  have all : ∀ entries : List (String × α),
      Preserves (forwardAll entries : Step (Rig δ α n) Unit) fun r ↦ K r.store.device := by
    intro entries
    induction entries with
    | nil => exact .pure ()
    | cons entry rest ih => exact .bind (one entry.1 entry.2) fun _ ↦ ih
  exact .bind .get fun r ↦ .ite (all _) (.pure ())

theorem computeResidual_lasts (lasts : Device.Lasts (α := α) K) :
    Preserves (computeResidual : Step (Rig δ α n) Bool) fun r ↦ K r.store.device := by
  intro r h
  have forwarded := preserves_forward lasts.parameter r.computing h
  -- What was forwarded to has been loaded from.
  have loaded : ∀ {device : δ} {overlay : Overlay α},
      forward r.computing = .ok () (r.computing.relay device overlay) →
      K (Device.loadResidual device r.track.x r.store.previous r.store.residual).device :=
    fun run ↦ lasts.residual (forwarded.ok run) _ _ _
  refine .of_result (computeResidual_run r) ?_ ?_
  · intro ok r' run
    cases run with
    | known => exact h
    | unloaded _ run call =>
      subst call
      exact loaded run
    | loaded _ run call =>
      subst call
      exact loaded run
  · intro e r' run
    cases run with
    | reentered => exact h
    | refused _ run =>
      have left := forwarded.error run
      exact left
    | stuck _ run call =>
      subst call
      exact loaded run

theorem Refreshed.lasts (base : Refreshed r r') (lasts : Device.Lasts (α := α) K)
    (h : K r.store.device) : K r'.store.device :=
  base.keeps (K := fun r ↦ K r.store.device) h fun _ ↦ computeResidual_lasts lasts r.outdated h

theorem computeJacobian_lasts (lasts : Device.Lasts (α := α) K) :
    Preserves (computeJacobian : Step (Rig δ α n) Bool) fun r ↦ K r.store.device := by
  intro r h
  have renewed := computeResidual_lasts lasts r.outdated h
  refine .of_result (computeJacobian_run r) ?_ ?_
  · intro ok r' run
    cases run with
    | known => exact h
    | unrefreshed _ _ run => exact renewed.ok run
    | unloaded _ base call =>
      subst call
      exact lasts.jacobian (base.lasts lasts h) _ _ _
    | loaded _ base call =>
      subst call
      exact lasts.jacobian (base.lasts lasts h) _ _ _
  · intro e r' run
    cases run with
    | reentered => exact h
    | refused _ _ run => exact renewed.error run
    | stuck _ base call =>
      subst call
      exact lasts.jacobian (base.lasts lasts h) _ _ _

omit [Device δ α] in
theorem computeNewton_lasts (mayReuse : Bool) :
    Preserves (computeNewton mayReuse : Step (Rig δ α n) Bool) fun r ↦ K r.store.device := by
  intro r h
  have kept : ∀ {r' : Rig δ α n}, r.Redirects r' → K r'.store.device := by
    intro r' redirects
    rw [redirects.device]
    exact h
  exact (computeNewton_redirects r mayReuse).mono (fun _ _ ↦ kept) fun _ _ ↦ kept

theorem computeResidual_holds :
    Preserves (computeResidual : Step (Rig δ α n) Bool) (Holds layer) :=
  computeResidual_lasts Device.lasts_reaches

theorem Refreshed.holds (base : Refreshed r r') (h : r.Holds layer) : r'.Holds layer :=
  base.lasts Device.lasts_reaches h

theorem computeJacobian_holds :
    Preserves (computeJacobian : Step (Rig δ α n) Bool) (Holds layer) :=
  computeJacobian_lasts Device.lasts_reaches

theorem computeNewton_holds (mayReuse : Bool) :
    Preserves (computeNewton mayReuse : Step (Rig δ α n) Bool) (Holds layer) :=
  computeNewton_lasts mayReuse

end Rig

end OperatingPoint
