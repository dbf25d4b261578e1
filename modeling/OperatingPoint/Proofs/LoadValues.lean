import OperatingPoint.Proofs.CarriedRun
import OperatingPoint.Proofs.Journals

/-!
# The values at a load

A journal lists what the device layer has been asked to do.  `Device.Request.AtLoads` says what held
whenever a residual was loaded between two such lists: of the requests until then, and so of the
values of parameters that the device layer held.

Before a residual is loaded the parameters are forwarded.  So in a whole Newton solve every load
finds the values of the track, as they were when the solve began.
-/

set_option autoImplicit false

namespace OperatingPoint

open Step

namespace Device.Request

variable {α : Type} {before between after older : List (Request α)} {request : Request α}
  {Φ Ψ : List (Request α) → Prop}

/-- The values that are held after some requests, the latest first. -/
def held (requests : List (Request α)) (name : String) : Option α :=
  requests.findSome? (taken? name)

/-- From `before` to `after`, which has the later requests first: whenever a residual was loaded,
`Φ` held of the requests until then. -/
def AtLoads (before after : List (Request α)) (Φ : List (Request α) → Prop) : Prop :=
  before <:+ after ∧
    ∀ older x, before <:+ older → (residual x :: older) <:+ after → Φ older

/-- A residual was loaded after some requests, and that was between two others. -/
def LoadsBetween (before after older : List (Request α)) : Prop :=
  before <:+ older ∧ ∃ x, (residual x :: older) <:+ after

namespace AtLoads

theorem refl (requests : List (Request α)) : AtLoads requests requests Φ := by
  refine ⟨List.suffix_rfl, fun older x later upTo ↦ ?_⟩
  have length := (upTo.trans later).length_le
  rw [List.length_cons] at length
  omega

theorem mono (h : AtLoads before after Φ)
    (weaker : ∀ older, LoadsBetween before after older → Φ older → Ψ older) :
    AtLoads before after Ψ :=
  ⟨h.1, fun older x later upTo ↦ weaker older ⟨later, x, upTo⟩ (h.2 older x later upTo)⟩

theorem trans (h : AtLoads before between Φ) (h' : AtLoads between after Φ) :
    AtLoads before after Φ := by
  refine ⟨h.1.trans h'.1, fun older x later upTo ↦ ?_⟩
  rcases List.suffix_or_suffix_of_suffix upTo h'.1 with earlier | meanwhile
  · exact h.2 older x later earlier
  · rcases List.suffix_cons_iff.1 meanwhile with same | meanwhile
    · exact h.2 older x later (same ▸ List.suffix_rfl)
    · exact h'.2 older x meanwhile upTo

/-- One more request, at which `Φ` holds if it is a load. -/
theorem cons (h : AtLoads before after Φ) (load : ∀ x, request = residual x → Φ after) :
    AtLoads before (request :: after) Φ := by
  refine ⟨h.1.trans (List.suffix_cons _ _), fun older x later upTo ↦ ?_⟩
  rcases List.suffix_cons_iff.1 upTo with same | earlier
  · obtain ⟨rfl, rfl⟩ := List.cons.inj same
    exact load x rfl
  · exact h.2 older x later earlier

/-- One more request, which is not a load. -/
theorem skip (h : AtLoads before after Φ) (other : ∀ x, request ≠ residual x) :
    AtLoads before (request :: after) Φ :=
  h.cons fun x load ↦ (other x load).elim

end AtLoads

end Device.Request

open Device.Request

namespace Rig

variable {δ α : Type} [Scalar α] [DirectSolver α] [Device δ α] {n : Nat}
  {r r' r₀ : Rig (Journal δ α) α n} {layer : Journal δ α}

/-- What the device layer of a rig has been asked to do. -/
def requests (r : Rig (Journal δ α) α n) : List (Device.Request α) := r.journal.requests

/-- After some requests the device layer holds the values of the parameters of a rig. -/
def Meets (r : Rig (Journal δ α) α n) (requests : List (Device.Request α)) : Prop :=
  ∀ name value, r.track.overlay.parameters.get? name = some value → held requests name = some value

/-! ## The computations -/

/-- Giving a parameter to the device layer loads nothing. -/
theorem giveToDevice_atLoads {before : List (Device.Request α)} {Φ : List (Device.Request α) → Prop}
    (name : String) (value : α) :
    Preserves (giveToDevice name value)
      fun r : Rig (Journal δ α) α n ↦ AtLoads before r.requests Φ := by
  intro r h
  unfold giveToDevice
  simp only [ends_bind, ends_get, ends_set, ends_ite, ends_pure, ends_fault]
  exact ⟨fun _ ↦ h.skip (by simp), fun _ ↦ h.skip (by simp)⟩

theorem forward_atLoads {before : List (Device.Request α)} {Φ : List (Device.Request α) → Prop} :
    Preserves (forward : Step (Rig (Journal δ α) α n) Unit)
      fun r ↦ AtLoads before r.requests Φ :=
  preserves_forward (K := fun j : Journal δ α ↦ AtLoads before j.requests Φ)
    fun h _ _ ↦ h.skip (by simp)

/-- A residual is loaded after the parameters have been forwarded. -/
theorem computeResidual_atLoads (laid : r.Lays layer none none true) :
    Ends computeResidual r (fun _ r' ↦ AtLoads r.requests r'.requests r.Meets)
      (fun _ r' ↦ AtLoads r.requests r'.requests r.Meets) := by
  have start : AtLoads r.requests r.requests r.Meets := .refl _
  have told := forward_told (r := r.computing) laid.names
    (Option.map_eq_none_iff.1 laid.strategy) (Option.map_eq_none_iff.1 laid.blend) laid.forwarding
  have asked := forward_atLoads r.computing start
  -- What a load finds is what has been forwarded.
  have loads : ∀ {device : Journal δ α} {overlay : Overlay α} {x : Array α},
      forward r.computing = .ok () (r.computing.relay device overlay) →
      AtLoads r.requests (.residual x :: device.requests) r.Meets := by
    intro device overlay x run
    refine (asked.ok run).cons fun _ _ name value there ↦ (told.ok run).2 name value ?_
    rw [(told.ok run).1]
    exact there
  refine .of_result (computeResidual_run r) ?_ ?_
  · intro ok r' run
    cases run with
    | known => exact start
    | unloaded _ run call =>
      subst call
      exact loads run
    | loaded _ run call =>
      subst call
      exact loads run
  · intro stop r' run
    cases run with
    | reentered => exact start
    | refused _ run =>
      have asked := asked.error run
      exact asked
    | stuck _ run call =>
      subst call
      exact loads run

theorem computeJacobian_atLoads (laid : r.Lays layer none none true) :
    Ends computeJacobian r (fun _ r' ↦ AtLoads r.requests r'.requests r.Meets)
      (fun _ r' ↦ AtLoads r.requests r'.requests r.Meets) := by
  have start : AtLoads r.requests r.requests r.Meets := .refl _
  have renewed : Ends computeResidual r.outdated
      (fun _ r' ↦ AtLoads r.requests r'.requests r.Meets)
      (fun _ r' ↦ AtLoads r.requests r'.requests r.Meets) := computeResidual_atLoads laid.outdated
  have refreshed : ∀ {r' : Rig (Journal δ α) α n}, Refreshed r r' →
      AtLoads r.requests r'.requests r.Meets :=
    fun base ↦ base.keeps start fun _ ↦ renewed
  refine .of_result (computeJacobian_run r) ?_ ?_
  · intro ok r' run
    cases run with
    | known => exact start
    | unrefreshed _ _ run => exact renewed.ok run
    | unloaded _ base call =>
      subst call
      exact (refreshed base).skip (by simp)
    | loaded _ base call =>
      subst call
      exact (refreshed base).skip (by simp)
  · intro stop r' run
    cases run with
    | reentered => exact start
    | refused _ _ run => exact renewed.error run
    | stuck _ base call =>
      subst call
      exact (refreshed base).skip (by simp)

/-! ## Newton's iteration -/

/-- What a Newton driver leaves while parameters are forwarded: its loads have found the values that
the parameters had to begin with, and have still. -/
structure Finds (layer : Journal δ α) (r r' : Rig (Journal δ α) α n) : Prop where
  laid : r'.Lays layer none none true
  frames : r.Frames r'
  loads : AtLoads r.requests r'.requests r.Meets

theorem Finds.refl (laid : r.Lays layer none none true) : Finds layer r r :=
  ⟨laid, .refl r, .refl _⟩

theorem Finds.meets (h : Finds layer r r') : r'.Meets = r.Meets := by
  unfold Meets
  rw [h.frames.overlay.parameters]

theorem Finds.next (h : Finds layer r r') {r'' : Rig (Journal δ α) α n}
    (laid : r''.Lays layer none none true) (frames : r'.Frames r'')
    (loads : AtLoads r'.requests r''.requests r'.Meets) : Finds layer r r'' :=
  ⟨laid, h.frames.trans frames, h.loads.trans (h.meets ▸ loads)⟩

theorem keeps_finds (r₀ : Rig (Journal δ α) α n) : Keeps (Finds layer r₀) fun _ ↦ True where
  rest h := h.laid.rest
  move h x := h.next (keeps_lays.move h.laid x) ⟨.refl _, rfl, rfl, rfl, rfl⟩ (.refl _)
  residual h :=
    ((computeResidual_lays h.laid).and (computeResidual_atLoads h.laid)).mono
      (fun _ _ run ↦ h.next run.1.1 run.1.2 run.2)
      fun _ _ run ↦ ⟨trivial, h.next run.1.1 run.1.2 run.2⟩
  jacobian h :=
    ((computeJacobian_lays h.laid).and (computeJacobian_atLoads h.laid)).mono
      (fun _ _ run ↦ h.next run.1.1 run.1.2 run.2)
      fun _ _ run ↦ ⟨trivial, h.next run.1.1 run.1.2 run.2⟩
  newton {r} h _ mayReuse _ := by
    have asks : Ends (computeNewton mayReuse) r
        (fun _ r' ↦ AtLoads r.requests r'.requests r.Meets)
        (fun _ r' ↦ AtLoads r.requests r'.requests r.Meets) := by
      have same : ∀ {r' : Rig (Journal δ α) α n}, r.Redirects r' →
          AtLoads r.requests r'.requests r.Meets := by
        intro r' redirects
        rw [requests, requests, journal, journal, redirects.device]
        exact .refl _
      exact (computeNewton_redirects r mayReuse).mono (fun _ _ redirects ↦ same redirects)
        fun _ _ redirects ↦ same redirects
    exact ((computeNewton_lays h.laid mayReuse).and asks).mono
      (fun _ _ run ↦ h.next run.1.1 run.1.2 run.2)
      fun _ _ run ↦ ⟨trivial, h.next run.1.1 run.1.2 run.2⟩

end Rig

/-- Whenever a Newton solve loads a residual, the device layer holds the values of the track. -/
theorem Engine.solve_finds {δ α : Type} [Scalar α] [DirectSolver α] [Device δ α] {n : Nat}
    {layer : Journal δ α} {e : Engine (Journal δ α) α n}
    (laid : e.rig.Lays layer none none true) :
    Ends solve e (fun _ e' ↦ Rig.Finds layer e.rig e'.rig)
      (fun _ e' ↦ Rig.Finds layer e.rig e'.rig) :=
  (solve_keeps (Rig.keeps_finds e.rig) (.refl laid)).mono (fun _ _ solved ↦ solved.2.keeps)
    fun _ _ halted ↦ halted.2.keeps

end OperatingPoint
