import OperatingPoint.Proofs.Equations

/-!
# Journals

A journal is a device layer that writes down what it is asked to do.  It answers as the device layer
inside it does, so that whatever is said of what a journal has seen is said of what any device layer
is asked to do: at which points it is loaded, which points are handed to it as accepted, and which
values of parameters it takes.

The value of a parameter that counts is the last one that was taken.  What an engine has forwarded
is told by comparing that with the parameters of the track: `Rig.Told`.
-/

set_option autoImplicit false

namespace OperatingPoint

open Step

/-- What a device layer is asked to do. -/
inductive Device.Request (α : Type) where
  | residual (x : Array α)
  | jacobian (x : Array α)
  /-- A value for a parameter, and whether it was taken. -/
  | parameter (name : String) (value : α) (taken : Bool)
  | accept (x : Array α)
  | abandon

namespace Device.Request

variable {α : Type}

/-- The point of a load, or of an acceptance. -/
def point? : Request α → Option (Array α)
  | residual x => some x
  | jacobian x => some x
  | accept x => some x
  | parameter _ _ _ => none
  | abandon => none

/-- The parameter that a value is offered for. -/
def offered? : Request α → Option String
  | parameter name _ _ => some name
  | _ => none

/-- The value that is taken for a parameter. -/
def taken? (name : String) : Request α → Option α
  | parameter name' value taken => if taken = true ∧ name' = name then some value else none
  | _ => none

end Device.Request

/-- A device layer with what it was asked to do, the latest first. -/
structure Journal (δ α : Type) where
  device : δ
  requests : List (Device.Request α) := []

namespace Journal

variable {δ α : Type}

/-- The points at which the device layer was loaded, and those that were handed to it. -/
def points (j : Journal δ α) : List (Array α) := j.requests.filterMap Device.Request.point?

/-- The parameters that values were offered for. -/
def offered (j : Journal δ α) : List String := j.requests.filterMap Device.Request.offered?

/-- The last value that was taken for a parameter. -/
def lastTaken (j : Journal δ α) (name : String) : Option α :=
  j.requests.findSome? (Device.Request.taken? name)

/-- The journal with another device layer, after one more request. -/
def note (j : Journal δ α) (device : δ) (request : Device.Request α) : Journal δ α :=
  ⟨device, request :: j.requests⟩

instance instDevice [Device δ α] : Device (Journal δ α) α where
  unknowns j := Device.unknowns j.device
  loadResidual j x previous buffer :=
    let load := Device.loadResidual j.device x previous buffer
    ⟨load.ok, load.buffer, j.note load.device (.residual x.toArray)⟩
  loadJacobian j x previous buffer :=
    let load := Device.loadJacobian j.device x previous buffer
    ⟨load.ok, load.buffer, j.note load.device (.jacobian x.toArray)⟩
  setParameter j name value :=
    let (taken, device) := Device.setParameter j.device name value
    (taken, j.note device (.parameter name value taken))
  parameter? j := Device.parameter? j.device
  voltageUnknowns j := Device.voltageUnknowns j.device
  unknown? j := Device.unknown? j.device
  devicesConverged j := Device.devicesConverged j.device
  innerSolveFailed j := Device.innerSolveFailed j.device
  accept j x := j.note (Device.accept j.device x) (.accept x)
  abandon j := j.note (Device.abandon j.device) .abandon

variable [Device δ α] (j : Journal δ α)

/-- A value that is taken is the last one, and one that is not is none. -/
theorem lastTaken_setParameter (name other : String) (value : α) :
    (Device.setParameter j name value).2.lastTaken other =
      if (Device.setParameter j name value).1 = true ∧ name = other then some value
      else j.lastTaken other := by
  have head : (Device.setParameter j name value).2.lastTaken other =
      (Device.Request.taken? other
        (.parameter name value (Device.setParameter j name value).1)).or (j.lastTaken other) := by
    show List.findSome? _ (_ :: _) = _
    rw [List.findSome?_cons]
    split
    · rename_i taken
      exact (congrArg (Option.or · _) taken).symm
    · rename_i refused
      exact (congrArg (Option.or · _) refused).symm
  rw [head, Device.Request.taken?]
  split <;> rfl

omit [Device δ α] in
/-- Only values of parameters are taken. -/
theorem lastTaken_note {request : Device.Request α} (other : ∀ name, request.taken? name = none)
    (device : δ) : (j.note device request).lastTaken = j.lastTaken := by
  funext name
  show List.findSome? _ (_ :: _) = _
  rw [List.findSome?_cons, other]
  rfl

@[simp] theorem lastTaken_loadResidual {k : Nat} (x previous buffer : Vector α k) :
    (Device.loadResidual j x previous buffer).device.lastTaken = j.lastTaken :=
  j.lastTaken_note (fun _ ↦ rfl) _

@[simp] theorem lastTaken_loadJacobian {k : Nat} (x previous : Vector α k) (buffer : Mat α k k) :
    (Device.loadJacobian j x previous buffer).device.lastTaken = j.lastTaken :=
  j.lastTaken_note (fun _ ↦ rfl) _

@[simp] theorem lastTaken_accept (x : Array α) : (Device.accept j x).lastTaken = j.lastTaken :=
  j.lastTaken_note (fun _ ↦ rfl) _

@[simp] theorem lastTaken_abandon : (Device.abandon j : Journal δ α).lastTaken = j.lastTaken :=
  j.lastTaken_note (fun _ ↦ rfl) _

@[simp] theorem points_loadResidual {k : Nat} (x previous buffer : Vector α k) :
    (Device.loadResidual j x previous buffer).device.points = x.toArray :: j.points := rfl

@[simp] theorem points_loadJacobian {k : Nat} (x previous : Vector α k) (buffer : Mat α k k) :
    (Device.loadJacobian j x previous buffer).device.points = x.toArray :: j.points := rfl

@[simp] theorem points_accept (x : Array α) : (Device.accept j x).points = x :: j.points := rfl

@[simp] theorem points_abandon : (Device.abandon j : Journal δ α).points = j.points := rfl

end Journal

/-! ## What has been forwarded -/

namespace Rig

variable {δ α : Type} [Scalar α] [DirectSolver α] [Device δ α] {n : Nat}
  {r r' : Rig (Journal δ α) α n}

/-- What the device layer of a rig has written down. -/
def journal (r : Rig (Journal δ α) α n) : Journal δ α := r.store.device

/-- The device layer has been told the values of all parameters. -/
def Told (r : Rig (Journal δ α) α n) : Prop :=
  ∀ name value, r.track.overlay.parameters.get? name = some value →
    r.journal.lastTaken name = some value

/-- Forwarding loads nothing and hands no point over. -/
theorem forward_points (seen : List (Array α)) :
    Preserves (forward : Step (Rig (Journal δ α) α n) Unit) fun r ↦ r.journal.points = seen :=
  preserves_forward (K := fun j : Journal δ α ↦ j.points = seen) fun h _ _ ↦ h

/-- Giving a parameter to the device layer. -/
theorem giveToDevice_run (name : String) (value : α) :
    Ends (giveToDevice name value) r
      (fun _ r' ↦ r'.track = r.track ∧ (∀ other, r'.journal.lastTaken other =
        if name = other then some value else r.journal.lastTaken other) ∧
        ∃ device, r'.journal = r.journal.note device (.parameter name value true))
      (fun stop r' ↦ stop = .fault (.config (.rejected name)) ∧ r'.track = r.track ∧
        r'.journal.lastTaken = r.journal.lastTaken ∧
        ∃ device, r'.journal = r.journal.note device (.parameter name value false)) := by
  unfold giveToDevice
  simp only [ends_bind, ends_get, ends_set, ends_ite, ends_pure, ends_fault]
  have last := Journal.lastTaken_setParameter r.journal name
  refine ⟨fun taken ↦ ⟨trivial, fun other ↦ ?_,
      (Device.setParameter r.journal.device name value).2, ?_⟩,
    fun refused ↦ ⟨trivial, trivial, funext fun other ↦ ?_,
      (Device.setParameter r.journal.device name value).2, ?_⟩⟩
  · have taken : (Device.setParameter r.journal name value).1 = true := taken
    have last := last other value
    refine last.trans ?_
    by_cases same : name = other
    · rw [if_pos ⟨taken, same⟩, if_pos same]
    · rw [if_neg fun both ↦ same both.2, if_neg same]
  · have taken : (Device.setParameter r.journal.device name value).1 = true := taken
    show Journal.note _ _ (.parameter name value _) = _
    rw [← taken]
    rfl
  · have refused : ¬ (Device.setParameter r.journal name value).1 = true := refused
    have last := last other value
    rw [if_neg fun there ↦ refused there.1] at last
    exact last
  · have refused : (Device.setParameter r.journal.device name value).1 = false :=
      Bool.eq_false_iff.2 refused
    show Journal.note _ _ (.parameter name value _) = _
    rw [← refused]
    rfl

/-- Where neither a strategy nor a blend is there to take it, a parameter goes to the device
layer. -/
theorem forwardOne_run (strategy : r.track.overlay.strategy = none)
    (blend : r.track.overlay.blend = none) (name : String) (value : α) :
    Ends (forwardOne name value) r
      (fun _ r' ↦ r'.track = r.track ∧ ∀ other, r'.journal.lastTaken other =
        if name = other then some value else r.journal.lastTaken other)
      (fun _ _ ↦ True) := by
  unfold forwardOne
  simp only [ends_bind, ends_get, ends_ite, ends_orFault, ends_set]
  refine ⟨fun _ ↦ ⟨fun overlay changed ↦ ?_, fun _ _ ↦ trivial⟩, fun _ ↦ ?_⟩
  · split at changed
    · rw [Overlay.setProgress, strategy] at changed
      cases changed
    · rw [Overlay.setBlend, blend] at changed
      cases changed
  · exact (giveToDevice_run name value).mono (fun _ _ given ↦ ⟨given.1, given.2.1⟩)
      fun _ _ _ ↦ trivial

/-- What is forwarded is the last that the device layer has taken. -/
theorem forwardAll_told {entries : List (String × α)} (names : (entries.map Prod.fst).Nodup)
    (strategy : r.track.overlay.strategy = none) (blend : r.track.overlay.blend = none) :
    Ends (forwardAll entries) r
      (fun _ r' ↦ r'.track = r.track ∧ ∀ name, r'.journal.lastTaken name =
        (entries.lookup name).or (r.journal.lastTaken name))
      (fun _ _ ↦ True) := by
  induction entries generalizing r with
  | nil => exact ⟨rfl, fun _ ↦ rfl⟩
  | cons entry rest ih =>
    rw [List.map_cons, List.nodup_cons] at names
    rw [forwardAll, ends_bind]
    refine (forwardOne_run strategy blend entry.1 entry.2).mono ?_ fun _ _ _ ↦ trivial
    rintro _ r₁ ⟨track, told⟩
    refine (ih names.2 (by rw [track]; exact strategy) (by rw [track]; exact blend)).mono ?_
      fun _ _ _ ↦ trivial
    rintro _ r₂ ⟨track', later⟩
    refine ⟨track'.trans track, fun name ↦ ?_⟩
    rw [later, told]
    by_cases own : entry.1 = name
    · -- The names that come later are other ones.
      subst own
      have absent : rest.lookup entry.1 = none := by
        rw [List.lookup_eq_none_iff]
        intro other mem
        rw [bne_iff_ne]
        intro same
        exact names.1 (same ▸ List.mem_map_of_mem mem)
      rw [if_pos rfl, List.lookup_cons, beq_self_eq_true, absent]
      rfl
    · rw [if_neg own, List.lookup_cons, beq_eq_false_iff_ne.2 (Ne.symm own)]

/-- Forwarding tells the device layer all the parameters. -/
theorem forward_told (names : (r.track.overlay.parameters.entries.map Prod.fst).Nodup)
    (strategy : r.track.overlay.strategy = none) (blend : r.track.overlay.blend = none)
    (on : r.track.overlay.forwarding = true) :
    Ends forward r (fun _ r' ↦ r'.track = r.track ∧ r'.Told) (fun _ _ ↦ True) := by
  unfold forward
  simp only [ends_bind, ends_get, ends_ite, on, not_true, false_implies, true_implies, and_true]
  refine (forwardAll_told names strategy blend).mono ?_ fun _ _ _ ↦ trivial
  rintro _ r' ⟨track, told⟩
  refine ⟨track, fun name value there ↦ ?_⟩
  rw [track] at there
  rw [told, show r.track.overlay.parameters.entries.lookup name = some value from there,
    Option.some_or]

omit [Device δ α] in
theorem Told.of_same (h : r.Told) (taken : r'.journal.lastTaken = r.journal.lastTaken)
    (parameters : r'.track.overlay.parameters = r.track.overlay.parameters) : r'.Told := by
  intro name value there
  rw [parameters] at there
  rw [taken]
  exact h name value there

variable {layer : Journal δ α}

/-- A residual is not loaded before the device layer has been told all the parameters. -/
theorem computeResidual_told (laid : r.Lays layer none none true)
    (told : r.isValid .residual = true → r.Told) :
    Ends computeResidual r (fun _ r' ↦ r'.Told) (fun _ _ ↦ True) := by
  have forwarded := forward_told (r := r.computing) laid.names
    (Option.map_eq_none_iff.1 laid.strategy) (Option.map_eq_none_iff.1 laid.blend) laid.forwarding
  refine .of_result (computeResidual_run r) ?_ fun _ _ _ ↦ trivial
  intro ok r' run
  cases run with
  | known valid => exact told valid
  | unloaded _ run call =>
    subst call
    exact (forwarded.ok run).2.of_same (Journal.lastTaken_loadResidual ..) rfl
  | loaded _ run call _ augmented =>
    subst call
    exact (forwarded.ok run).2.of_same (Journal.lastTaken_loadResidual ..)
      (Overlay.augmentResidual_alike augmented).parameters

theorem computeJacobian_told (laid : r.Lays layer none none true) (told : r.Told) :
    Ends computeJacobian r (fun _ r' ↦ r'.Told) (fun _ _ ↦ True) := by
  have renewed : Ends computeResidual r.outdated (fun _ r' ↦ r'.Told) (fun _ _ ↦ True) :=
    computeResidual_told laid.outdated fun _ ↦ told
  have refreshed : ∀ {r' : Rig (Journal δ α) α n}, Refreshed r r' → r'.Told :=
    fun base ↦ base.keeps told fun _ ↦ renewed
  refine .of_result (computeJacobian_run r) ?_ fun _ _ _ ↦ trivial
  intro ok r' run
  cases run with
  | known => exact told
  | unrefreshed _ _ run => exact renewed.ok run
  | unloaded _ base call =>
    subst call
    exact (refreshed base).of_same (Journal.lastTaken_loadJacobian ..) rfl
  | loaded _ base call _ augmented =>
    subst call
    exact (refreshed base).of_same (Journal.lastTaken_loadJacobian ..)
      (Overlay.augmentJacobian_alike augmented).parameters

omit [Device δ α] in
theorem computeNewton_told (told : r.Told) (mayReuse : Bool) :
    Ends (computeNewton mayReuse) r (fun _ r' ↦ r'.Told) (fun _ _ ↦ True) := by
  refine (computeNewton_redirects r mayReuse).mono (fun _ r' redirects ↦ ?_) fun _ _ _ ↦ trivial
  exact told.of_same (congrArg Journal.lastTaken redirects.device)
    (congrArg Overlay.parameters redirects.overlay)

end Rig

end OperatingPoint
