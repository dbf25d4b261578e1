import OperatingPoint.Proofs.Overlays
import OperatingPoint.Proofs.PureDevice

/-!
# Parameters that have values

What a parameter does to a pure device layer is left open by `PureDevice`.  Here its parameters have
*values*: a parameter has the value that it took last, whatever the others take in between, and if it
is offered the value that it has, then it takes it and nothing changes that a load depends on.
Whether a load can evaluate is a matter of the view and the two solutions, too.

From this it follows what forwarding is worth.  Once it has come to its end, everything that was
forwarded has been received, and as long as that stays so it can be forwarded again without any
effect.

A circuit has such parameters, as long as all the unknowns that it names are there.
-/

set_option autoImplicit false

namespace OperatingPoint

open Step

/-- What there is to know of a pure device layer of `n` unknowns whose parameters have values. -/
structure PureDevice.Valued {δ α : Type} [Scalar α] [Device δ α] (P : PureDevice δ α) (n : Nat) where
  /-- What is known of all the states that the device layer comes to. -/
  Fit : δ → Prop
  /-- The parameter has the value, in states of the view. -/
  Has : P.View → String → α → Prop
  /-- Whether a load of the residual evaluates. -/
  evaluates : P.View → (x previous : Vector α n) → Bool
  /-- Whether a load of the Jacobian evaluates. -/
  differentiates : P.View → (x previous : Vector α n) → Bool
  residual_ok : ∀ {d : δ}, Fit d → ∀ x previous buffer : Vector α n,
    (Device.loadResidual d x previous buffer).ok = evaluates (P.view d) x previous
  jacobian_ok : ∀ {d : δ}, Fit d → ∀ (x previous : Vector α n) (buffer : Mat α n n),
    (Device.loadJacobian d x previous buffer).ok = differentiates (P.view d) x previous
  residual_fit : ∀ {d : δ}, Fit d → ∀ x previous buffer : Vector α n,
    Fit (Device.loadResidual d x previous buffer).device
  jacobian_fit : ∀ {d : δ}, Fit d → ∀ (x previous : Vector α n) (buffer : Mat α n n),
    Fit (Device.loadJacobian d x previous buffer).device
  parameter_fit : ∀ {d : δ}, Fit d → ∀ (name : String) (value : α),
    Fit (Device.setParameter d name value).2
  /-- A parameter has the value that it has taken. -/
  has_of_taken : ∀ {d : δ}, Fit d → ∀ {name : String} {value : α},
    (Device.setParameter d name value).1 = true →
      Has (P.view (Device.setParameter d name value).2) name value
  /-- What another one is offered makes no difference to it. -/
  has_of_other : ∀ {d : δ}, Fit d → ∀ {name other : String} {value own : α}, other ≠ name →
    Has (P.view d) other own → Has (P.view (Device.setParameter d name value).2) other own
  /-- The value that it has is taken and changes nothing. -/
  taken_of_has : ∀ {d : δ}, Fit d → ∀ {name : String} {value : α}, Has (P.view d) name value →
    (Device.setParameter d name value).1 = true ∧
      P.view (Device.setParameter d name value).2 = P.view d
  /-- A value that is refused changes nothing. -/
  view_of_refused : ∀ {d : δ}, Fit d → ∀ {name : String} {value : α},
    (Device.setParameter d name value).1 = false →
      P.view (Device.setParameter d name value).2 = P.view d

/-! ## Circuits -/

namespace Circuit

/-- All the unknowns that a circuit names are among `n`. -/
structure Fits (c : Circuit) (n : Nat) : Prop where
  terms : c.terms.all (·.fits n) = true
  failResidual : c.failResidual.all (·.fits n) = true
  failJacobian : c.failJacobian.all (·.fits n) = true

instance Fits.instDecidable {c : Circuit} {n : Nat} : Decidable (c.Fits n) :=
  decidable_of_iff (c.terms.all (·.fits n) = true ∧ c.failResidual.all (·.fits n) = true ∧
    c.failJacobian.all (·.fits n) = true) ⟨fun h ↦ ⟨h.1, h.2.1, h.2.2⟩, fun h ↦ ⟨h.1, h.2, h.3⟩⟩

/-- A state that `c` comes to while the unknowns that it names are there. -/
structure Keeps (c : Circuit) (d : Circuit) : Prop where
  whole : d.broken = false
  terms : d.terms = c.terms
  failResidual : d.failResidual = c.failResidual
  failJacobian : d.failJacobian = c.failJacobian
  writeOnly : d.writeOnly = c.writeOnly

theorem Keeps.note {c d : Circuit} (h : c.Keeps d) (change : CircuitEvents → CircuitEvents) :
    c.Keeps (d.note change) := by
  unfold Circuit.note
  split
  · exact ⟨h.1, h.2, h.3, h.4, h.5⟩
  · exact h

variable {n : Nat} {c d : Circuit}

theorem loadResidual_keeps (fits : c.Fits n) (h : c.Keeps d) (x previous buffer : Vector Float n) :
    (d.loadResidual x previous buffer).ok = !fails c.failResidual x.toArray ∧
      c.Keeps (d.loadResidual x previous buffer).device := by
  unfold loadResidual
  extract_lets counted noted f
  have kept : c.Keeps noted := Keeps.note (d := counted) ⟨h.1, h.2, h.3, h.4, h.5⟩ _
  rw [if_neg (by rw [kept.whole, kept.failResidual, fits.failResidual]; decide), kept.failResidual]
  split
  · rename_i failing
    exact ⟨by rw [failing]; rfl, kept⟩
  · rename_i good
    rw [if_neg (by rw [kept.terms, fits.terms]; decide)]
    exact ⟨by rw [Bool.not_eq_true] at good; rw [good]; rfl, kept⟩

theorem loadJacobian_keeps (fits : c.Fits n) (h : c.Keeps d) (x : Vector Float n)
    (buffer : Mat Float n n) :
    (d.loadJacobian x buffer).ok = !fails c.failJacobian x.toArray ∧
      c.Keeps (d.loadJacobian x buffer).device := by
  unfold loadJacobian
  extract_lets noted A
  have kept : c.Keeps noted := h.note _
  rw [if_neg (by rw [kept.whole, kept.failJacobian, fits.failJacobian]; decide), kept.failJacobian]
  split
  · rename_i failing
    exact ⟨by rw [failing]; rfl, kept⟩
  · rename_i good
    rw [if_neg (by rw [kept.terms, fits.terms]; decide)]
    exact ⟨by rw [Bool.not_eq_true] at good; rw [good]; rfl, kept⟩

/-- The values of parameters after one of them was set. -/
def setIn (name : String) (value : Float) (parameters : List (String × Float)) :
    List (String × Float) :=
  parameters.map fun p ↦ if p.1 = name then (name, value) else p

theorem names_setIn (name : String) (value : Float) (parameters : List (String × Float)) :
    (setIn name value parameters).map Prod.fst = parameters.map Prod.fst := by
  rw [setIn, List.map_map]
  refine List.map_congr_left fun p _ ↦ ?_
  show (if p.1 = name then (name, value) else p).1 = p.1
  split
  · rename_i same
    exact same.symm
  · rfl

/-- Setting a parameter to the value that it is listed with. -/
theorem setIn_eq_self {name : String} {value : Float} {parameters : List (String × Float)}
    (same : ∀ p ∈ parameters, p.1 = name → p.2 = value) :
    setIn name value parameters = parameters := by
  refine (List.map_congr_left fun p mem ↦ ?_).trans (List.map_id _)
  show (if p.1 = name then (name, value) else p) = p
  split
  · rename_i own
    exact Prod.ext own.symm (same p mem own).symm
  · rfl

theorem mem_names_iff {name : String} {parameters : List (String × Float)} :
    (parameters.lookup name).isSome = true ↔ name ∈ parameters.map Prod.fst := by
  rw [← Bool.not_eq_false, Option.isSome_eq_false_iff, Option.isNone_iff_eq_none,
    List.lookup_eq_none_iff, List.mem_map]
  constructor
  · intro there
    refine Classical.byContradiction fun missing ↦ there fun p mem ↦ ?_
    exact bne_iff_ne.2 fun same ↦ missing ⟨p, mem, same.symm⟩
  · rintro ⟨p, mem, rfl⟩ missing
    exact absurd (missing p mem) (by simp)

/-- What offering a value does to the parameters, and whether it is taken. -/
theorem setParameter_view (d : Circuit) (name : String) (value : Float) :
    (d.setParameter name value).2.equations = (d.terms, setIn name value d.parameters) ∧
      ((d.setParameter name value).1 = true ↔
        name ∈ d.parameters.map Prod.fst ∨ name ∈ d.writeOnly) := by
  unfold setParameter
  extract_lets c'
  have same : c'.equations = d.equations := note_equations d _
  have terms : c'.terms = d.terms := congrArg Prod.fst same
  have parameters : c'.parameters = d.parameters := congrArg Prod.snd same
  have writeOnly : c'.writeOnly = d.writeOnly := by
    show (note d _).writeOnly = _
    unfold note
    split
    · rfl
    · rfl
  rw [parameters]
  split
  · rename_i there
    exact ⟨congrArg (·, setIn name value d.parameters) terms,
      ⟨fun _ ↦ .inl (mem_names_iff.1 there), fun _ ↦ rfl⟩⟩
  · rename_i absent
    rw [mem_names_iff] at absent
    have unlisted : setIn name value d.parameters = d.parameters :=
      setIn_eq_self fun p mem own ↦ absurd (List.mem_map.2 ⟨p, mem, own⟩) absent
    refine ⟨?_, ?_⟩
    · rw [unlisted]
      exact same
    · show c'.writeOnly.contains name = true ↔ _
      rw [writeOnly, List.contains_iff_mem]
      exact ⟨.inr, fun known ↦ known.resolve_left absent⟩

/-- A value that a parameter is listed with already tells a circuit nothing new. -/
theorem equations_setParameter {name : String} {value : Float}
    (same : ∀ p ∈ d.parameters, p.1 = name → p.2 = value) :
    (d.setParameter name value).2.equations = d.equations :=
  (setParameter_view d name value).1.trans (congrArg (d.terms, ·) (setIn_eq_self same))

theorem setParameter_keeps (h : c.Keeps d) (name : String) (value : Float) :
    c.Keeps (d.setParameter name value).2 := by
  have kept := h.note fun e ↦ { e with writes := recordWrite name value e.writes }
  unfold setParameter
  dsimp only
  split
  · exact ⟨kept.1, kept.2, kept.3, kept.4, kept.5⟩
  · exact kept

/-- A parameter of a circuit has a value: wherever it is listed it is listed with it, and otherwise
it is one that is taken and forgotten. -/
structure HasIn (writeOnly : List String) (e : List Term × List (String × Float)) (name : String)
    (value : Float) : Prop where
  known : name ∈ e.2.map Prod.fst ∨ name ∈ writeOnly
  same : ∀ p ∈ e.2, p.1 = name → p.2 = value

/-- The parameters of a circuit have values, as long as the unknowns that it names are there. -/
def valued (c : Circuit) (fits : c.Fits n) : pure.Valued n where
  Fit := c.Keeps
  Has := HasIn c.writeOnly
  evaluates _ x _ := !fails c.failResidual x.toArray
  differentiates _ x _ := !fails c.failJacobian x.toArray
  residual_ok h x previous buffer := (loadResidual_keeps fits h x previous buffer).1
  jacobian_ok h x _ buffer := (loadJacobian_keeps fits h x buffer).1
  residual_fit h x previous buffer := (loadResidual_keeps fits h x previous buffer).2
  jacobian_fit h x _ buffer := (loadJacobian_keeps fits h x buffer).2
  parameter_fit h name value := setParameter_keeps h name value
  has_of_taken {d} h {name value} taken := by
    obtain ⟨view, takes⟩ := setParameter_view d name value
    show HasIn _ (d.setParameter name value).2.equations name value
    rw [view]
    refine ⟨?_, ?_⟩
    · rw [names_setIn, ← h.writeOnly]
      exact takes.1 taken
    · intro p mem own
      obtain ⟨q, -, rfl⟩ := List.mem_map.1 mem
      split at own
      · rename_i same
        rw [if_pos same]
      · rename_i other
        exact absurd own other
  has_of_other {d} h {name other value own} ne has := by
    show HasIn _ (d.setParameter name value).2.equations other own
    rw [(setParameter_view d name value).1]
    refine ⟨?_, ?_⟩
    · rw [names_setIn]
      exact has.known
    · intro p mem same
      obtain ⟨q, there, rfl⟩ := List.mem_map.1 mem
      split at same
      · exact absurd same.symm ne
      · rename_i unset
        rw [if_neg unset]
        exact has.same q there same
  taken_of_has {d} h {name value} has := by
    refine ⟨(setParameter_view d name value).2.2 ?_, equations_setParameter has.same⟩
    rw [h.writeOnly]
    exact has.known
  view_of_refused {d} h {name value} refused := by
    have unknown : ¬ (d.setParameter name value).1 = true := Bool.not_eq_true _ ▸ refused
    rw [(setParameter_view d name value).2, not_or] at unknown
    exact equations_setParameter fun p mem own ↦
      absurd (List.mem_map.2 ⟨p, mem, own⟩) unknown.1

end Circuit

/-! ## Forwarding -/

namespace Rig

variable {δ α : Type} [Scalar α] [DirectSolver α] [Device δ α] {n : Nat} {P : PureDevice δ α}
  {r r' : Rig δ α n} {name : String} {value : α}

/-- A parameter that is forwarded has its value already, in the blend or in the device layer. -/
structure Received (D : P.Valued n) (r : Rig δ α n) (name : String) (value : α) : Prop where
  free : name ≠ Parameters.progressName
  blend : name = Parameters.blendName →
    ∃ b, r.track.overlay.blend = some b ∧ b.setLambda value = b
  device : name ≠ Parameters.blendName → D.Has (P.view r.store.device) name value

/-- The parameters of a rig have reached the blend and the device layer. -/
def Informed (D : P.Valued n) (r : Rig δ α n) : Prop :=
  ∀ entry ∈ r.track.overlay.parameters.entries, r.Received D entry.1 entry.2

/-- The same rig, but for its device layer, which is in another state of the same view. -/
structure Poses (D : P.Valued n) (r r' : Rig δ α n) : Prop where
  relayed : ∃ device, r' = r.relay device r.track.overlay
  view : P.view r'.store.device = P.view r.store.device
  fit : D.Fit r'.store.device

variable {D : P.Valued n}

theorem Poses.refl (fit : D.Fit r.store.device) : r.Poses D r := ⟨⟨r.store.device, rfl⟩, rfl, fit⟩

theorem Poses.trans {r'' : Rig δ α n} (h : r.Poses D r') (h' : r'.Poses D r'') :
    r.Poses D r'' where
  relayed := by
    obtain ⟨_, rfl⟩ := h.relayed
    obtain ⟨device, rfl⟩ := h'.relayed
    exact ⟨device, rfl⟩
  view := h'.view.trans h.view
  fit := h'.fit

theorem Received.of_same (h : r.Received D name value)
    (blend : r'.track.overlay.blend = r.track.overlay.blend)
    (view : P.view r'.store.device = P.view r.store.device) : r'.Received D name value := by
  refine ⟨h.free, ?_, ?_⟩
  · rw [blend]
    exact h.blend
  · rw [view]
    exact h.device

theorem Poses.received (h : r.Poses D r') (received : r.Received D name value) :
    r'.Received D name value := by
  refine received.of_same ?_ h.view
  obtain ⟨_, rfl⟩ := h.relayed
  rfl

/-! What has been received is forwarded again without any effect. -/

theorem forwardOne_received (fit : D.Fit r.store.device) (h : r.Received D name value) :
    Ends (forwardOne name value) r (fun _ r' ↦ r.Poses D r') (fun _ _ ↦ False) := by
  unfold forwardOne giveToDevice
  simp only [ends_bind, ends_get, ends_set, ends_ite, ends_orFault, ends_pure, ends_fault]
  by_cases own : name = Parameters.blendName
  · refine ⟨fun _ ↦ ?_, fun other ↦ absurd (.inr own) other⟩
    obtain ⟨b, there, same⟩ := h.blend own
    have unchanged : r.track.overlay.setBlend value = .ok r.track.overlay := by
      unfold Overlay.setBlend
      simp only [there, same]
      rw [← there]
    rw [if_neg h.free, unchanged]
    refine ⟨fun overlay changed ↦ ?_, fun _ refused ↦ by cases refused⟩
    cases changed
    exact .refl fit
  · refine ⟨fun reserved ↦ absurd reserved (not_or.2 ⟨h.free, own⟩), fun _ ↦ ?_⟩
    obtain ⟨taken, view⟩ := D.taken_of_has fit (h.device own)
    exact ⟨fun _ ↦ ⟨⟨_, rfl⟩, view, D.parameter_fit fit name value⟩,
      fun refused ↦ absurd taken refused⟩

theorem forwardAll_received (fit : D.Fit r.store.device) {entries : List (String × α)}
    (h : ∀ entry ∈ entries, r.Received D entry.1 entry.2) :
    Ends (forwardAll entries) r (fun _ r' ↦ r.Poses D r') (fun _ _ ↦ False) := by
  induction entries generalizing r with
  | nil => exact .refl fit
  | cons entry rest ih =>
    rw [List.forall_mem_cons] at h
    rw [forwardAll, ends_bind]
    refine (forwardOne_received fit h.1).mono (fun _ r₁ posed ↦ ?_) fun _ _ h ↦ h
    exact (ih posed.fit fun entry mem ↦ posed.received (h.2 entry mem)).mono
      (fun _ _ posed' ↦ posed.trans posed') fun _ _ h ↦ h

/-- Forwarding to a rig that is informed changes nothing. -/
theorem forward_informed (fit : D.Fit r.store.device)
    (h : r.track.overlay.forwarding = true → r.Informed D) :
    Ends forward r (fun _ r' ↦ r.Poses D r') (fun _ _ ↦ False) := by
  unfold forward
  simp only [ends_bind, ends_get, ends_ite, ends_pure]
  exact ⟨fun on ↦ forwardAll_received fit (h on), fun _ ↦ .refl fit⟩

/-! What has been forwarded has been received, where no strategy is there to take it. -/

/-- No strategy is attached, and the device layer is fit. -/
structure Open (D : P.Valued n) (r : Rig δ α n) : Prop where
  fit : D.Fit r.store.device
  strategy : r.track.overlay.strategy = none

theorem forwardOne_receives (h : r.Open D) :
    Ends (forwardOne name value) r
      (fun _ r' ↦ r'.Open D ∧ r'.Received D name value ∧ ∀ {other own}, other ≠ name →
        r.Received D other own → r'.Received D other own)
      (fun _ r' ↦ r'.Open D) := by
  unfold forwardOne giveToDevice
  simp only [ends_bind, ends_get, ends_set, ends_ite, ends_orFault, ends_pure, ends_fault]
  have given : Open D { r with
      store := { r.store with device := (Device.setParameter r.store.device name value).2 } } :=
    ⟨D.parameter_fit h.fit name value, h.strategy⟩
  refine ⟨fun reserved ↦ ⟨fun overlay changed ↦ ?_, fun _ _ ↦ h⟩, fun free ↦ ?_⟩
  · split at changed
    · unfold Overlay.setProgress at changed
      rw [h.strategy] at changed
      cases changed
    · rename_i unreserved
      have own := reserved.resolve_left unreserved
      unfold Overlay.setBlend at changed
      split at changed
      · cases changed
        refine ⟨⟨h.fit, h.strategy⟩,
          ⟨unreserved, fun _ ↦ ⟨_, rfl, rfl⟩, fun other ↦ absurd own other⟩, ?_⟩
        intro other value' ne received
        exact ⟨received.free, fun same ↦ absurd (same.trans own.symm) ne, received.device⟩
      · cases changed
  · rw [not_or] at free
    refine ⟨fun taken ↦ ⟨given, ⟨free.1, fun own ↦ absurd own free.2,
      fun _ ↦ D.has_of_taken h.fit taken⟩, fun {other own} ne received ↦ ?_⟩, fun _ ↦ given⟩
    exact ⟨received.free, received.blend, fun device ↦
      D.has_of_other h.fit ne (received.device device)⟩

theorem forwardAll_receives (h : r.Open D) {entries : List (String × α)}
    (names : (entries.map Prod.fst).Nodup) :
    Ends (forwardAll entries) r
      (fun _ r' ↦ r'.Open D ∧ (∀ entry ∈ entries, r'.Received D entry.1 entry.2) ∧
        ∀ {other own}, other ∉ entries.map Prod.fst → r.Received D other own →
          r'.Received D other own)
      (fun _ r' ↦ r'.Open D) := by
  induction entries generalizing r with
  | nil => exact ⟨h, nofun, fun _ received ↦ received⟩
  | cons entry rest ih =>
    rw [List.map_cons, List.nodup_cons] at names
    rw [forwardAll, ends_bind]
    refine (forwardOne_receives h).mono ?_ fun _ _ left ↦ left
    rintro _ r₁ ⟨opened, received, still⟩
    refine (ih opened names.2).mono ?_ fun _ _ left ↦ left
    rintro _ r₂ ⟨opened', received', still'⟩
    refine ⟨opened', ?_, fun {other own} absent earlier ↦ ?_⟩
    · -- The names that come later are other ones.
      rw [List.forall_mem_cons]
      exact ⟨still' names.1 received, received'⟩
    · rw [List.map_cons, List.mem_cons, not_or] at absent
      exact still' absent.2 (still absent.1 earlier)

/-- A rig is informed after forwarding. -/
theorem forward_receives (h : r.Open D)
    (names : (r.track.overlay.parameters.entries.map Prod.fst).Nodup) :
    Ends forward r
      (fun _ r' ↦ r'.Open D ∧ (r'.track.overlay.forwarding = true → r'.Informed D))
      (fun _ r' ↦ r'.Open D) := by
  have alike := forward_alike r
  unfold forward at alike ⊢
  simp only [ends_bind, ends_get, ends_ite, ends_pure] at alike ⊢
  refine ⟨fun on ↦ ((forwardAll_receives h names).and (alike.1 on)).mono ?_ fun _ _ left ↦ left.1,
    fun off ↦ ⟨h, fun on ↦ absurd on off⟩⟩
  rintro _ r' ⟨⟨opened, received, -⟩, alike⟩
  refine ⟨opened, fun _ ↦ ?_⟩
  unfold Informed
  rw [alike.parameters]
  exact received

end Rig

end OperatingPoint
