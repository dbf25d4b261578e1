import OperatingPoint.Proofs.CarriedRun

/-!
# Which parameters are set

Beside what is laid over the equations of a rig, this is about the names of its parameters.  Only
setting a parameter brings in a name, and a name that is taken out is gone, since no name comes up
twice.  Solves leave the parameters alone, so that a stepper brings in the names of what it steps and
no others.
-/

set_option autoImplicit false

namespace OperatingPoint

open Step

variable {δ α : Type} [Scalar α] [DirectSolver α] [Device δ α] {n : Nat} {layer : δ}
  {N : String → Prop} {L : Option (Augmentation α)} {B : Option (Array α)} {forwarding : Bool}

namespace Rig

variable {r r' : Rig δ α n} {t : Track α n}

/-- A rig with something laid over the equations, all of whose parameters have names in `N`. -/
structure Laid (layer : δ) (N : String → Prop) (L : Option (Augmentation α))
    (B : Option (Array α)) (forwarding : Bool) (r : Rig δ α n) : Prop extends
    r.Lays layer L B forwarding where
  within : ∀ name ∈ r.track.overlay.parameters.entries.map Prod.fst, N name

namespace Laid

theorem of_lays {L' : Option (Augmentation α)} {B' : Option (Array α)} {forwarding' : Bool}
    (h : r.Laid layer N L B forwarding) (laid : r'.Lays layer L' B' forwarding')
    (same : r'.track.overlay.parameters = r.track.overlay.parameters) :
    r'.Laid layer N L' B' forwarding' := by
  refine ⟨laid, ?_⟩
  rw [same]
  exact h.within

theorem weaken {N' : String → Prop} (h : r.Laid layer N L B forwarding)
    (wider : ∀ name, N name → N' name) : r.Laid layer N' L B forwarding :=
  ⟨h.toLays, fun name mem ↦ wider name (h.within name mem)⟩

theorem setParameter (h : r.Laid layer N L B forwarding) {name : String} (own : N name)
    (value : α) : (r.withTrack (r.track.setParameter name value)).Laid layer N L B forwarding := by
  refine ⟨h.toLays.setParameter name value, fun other mem ↦ ?_⟩
  rw [withTrack] at mem
  rcases r.track.setParameter_overlay name value with set | ⟨unchanged, -⟩
  · rw [set] at mem
    rcases Parameters.mem_names_insertInto mem with rfl | old
    · exact own
    · exact h.within other old
  · rw [unchanged] at mem
    exact h.within other mem

theorem setStarts (h : r.Laid layer N L B forwarding) {sweeps : List (Sweep α)}
    (own : ∀ sweep ∈ sweeps, N sweep.name) :
    (r.withTrack (sweeps.foldl (fun t sweep ↦ t.setParameter sweep.name sweep.start)
      r.track)).Laid layer N L B forwarding := by
  induction sweeps generalizing r with
  | nil => exact h
  | cons sweep rest ih =>
    rw [List.forall_mem_cons] at own
    exact ih (h.setParameter own.1 sweep.start) own.2

/-- A name that is taken out is gone. -/
theorem removeParameter {name : String}
    (h : r.Laid layer (fun other ↦ N other ∨ other = name) L B forwarding) :
    (r.withTrack (r.track.removeParameter name)).Laid layer N L B forwarding := by
  refine ⟨h.toLays.removeParameter name, fun other mem ↦ ?_⟩
  unfold withTrack Track.removeParameter at mem
  split at mem
  · obtain ⟨old, different⟩ := Parameters.mem_names_eraseP h.names mem
    exact (h.within other old).resolve_right different
  · rename_i missing
    rw [Bool.not_eq_true, Option.isSome_eq_false_iff, Option.isNone_iff_eq_none,
      Parameters.get?_eq_none_iff] at missing
    refine (h.within other mem).resolve_right ?_
    rintro rfl
    exact missing mem

theorem setForwarding (h : r.Laid layer N L B forwarding) (forwarding' : Bool) :
    (r.withTrack (r.track.setForwarding forwarding')).Laid layer N L B forwarding' := by
  refine h.of_lays (h.toLays.setForwarding forwarding') ?_
  rw [withTrack, Track.setForwarding_overlay]

theorem attach (h : r.Laid layer N L B forwarding) {a : Augmentation α}
    (attached : r.track.attach a = .ok t) :
    (r.withTrack t).Laid layer N (some a.frame) B forwarding := by
  refine h.of_lays (h.toLays.attach attached) ?_
  rw [withTrack, Track.attach_overlay attached]

theorem detach (h : r.Laid layer N L B forwarding) :
    (r.withTrack r.track.detach).Laid layer N none B forwarding := by
  refine h.of_lays h.toLays.detach ?_
  rw [withTrack, Track.detach_overlay]

theorem attachBlend (h : r.Laid layer N L B forwarding) (b : Blend α) :
    (r.withTrack (r.track.attachBlend b)).Laid layer N L (some b.start) forwarding :=
  h.of_lays (h.toLays.attachBlend b) rfl

theorem detachBlend (h : r.Laid layer N L B forwarding) :
    (r.withTrack r.track.detachBlend).Laid layer N L none forwarding := by
  refine h.of_lays h.toLays.detachBlend ?_
  rw [withTrack, Track.detachBlend_overlay]

theorem strategy_eq_none (h : r.Laid layer N none B forwarding) :
    r.track.overlay.strategy = none :=
  Option.map_eq_none_iff.1 h.strategy

end Laid

theorem keeps_laid : Keeps (Laid (n := n) layer N L B forwarding) fun _ ↦ True where
  rest h := h.rest
  move h x := h.of_lays (keeps_lays.move h.toLays x) rfl
  residual h := (computeResidual_lays h.toLays).mono
    (fun _ _ kept ↦ h.of_lays kept.1 kept.2.overlay.parameters)
    fun _ _ kept ↦ ⟨trivial, h.of_lays kept.1 kept.2.overlay.parameters⟩
  jacobian h := (computeJacobian_lays h.toLays).mono
    (fun _ _ kept ↦ h.of_lays kept.1 kept.2.overlay.parameters)
    fun _ _ kept ↦ ⟨trivial, h.of_lays kept.1 kept.2.overlay.parameters⟩
  newton h _ mayReuse _ := (computeNewton_lays h.toLays mayReuse).mono
    (fun _ _ kept ↦ h.of_lays kept.1 kept.2.overlay.parameters)
    fun _ _ kept ↦ ⟨trivial, h.of_lays kept.1 kept.2.overlay.parameters⟩

theorem keepsMarch_laid : KeepsMarch (Laid (n := n) layer N L B forwarding) fun _ ↦ True where
  toKeeps := keeps_laid
  pseudo h _ _ there frame := h.of_lays (keepsMarch_lays.pseudo h.toLays there frame) rfl

/-- What a Newton driver keeps, it carries along. -/
theorem Keeps.carries {I : Rig δ α n → Prop} {Q : Stop → Prop} (keeps : Keeps I Q) :
    Carries I I I I (fun _ ↦ True) fun _ ↦ True where
  opens h := h
  settles h := h
  stops h := h
  point _ := trivial
  enter h := (keeps.residual h).mono (fun _ _ kept ↦ kept) fun _ _ kept ↦ kept.2
  first h := (keeps.jacobian h).mono (fun _ _ kept ↦ ⟨kept, fun _ ↦ kept⟩) fun _ _ kept ↦ kept.2
  residual h := (keeps.residual h).mono (fun _ _ kept ↦ kept) fun _ _ kept ↦ kept.2
  jacobian h := (keeps.jacobian h).mono (fun _ _ kept ↦ kept) fun _ _ kept ↦ kept.2
  newton h mayReuse := (keeps.preserves_newton mayReuse _ h).mono
    (fun _ _ kept ↦ ⟨kept, fun _ ↦ trivial⟩) fun _ _ kept ↦ kept
  move h _ _ _ := keeps.move h _

end Rig

/-! ## A stepper -/

namespace Stepper

variable {s : Stepper α} {e : Engine δ α n}

theorem setAll_laid {r : Rig δ α n} (h : r.Laid layer N L B forwarding) (lead : N s.lead.name)
    (coupled : ∀ path ∈ s.coupled, N path.name) (value : α) :
    (r.withTrack (s.setAll value r.track)).Laid layer N L B forwarding := by
  have along : ∀ (paths : List (ParameterPath α)) (t : Track α n), (∀ path ∈ paths, N path.name) →
      (r.withTrack t).Laid layer N L B forwarding →
      (r.withTrack (paths.foldl (fun t path ↦
        t.setParameter path.name (path.at (s.fraction value))) t)).Laid layer N L B forwarding := by
    intro paths
    induction paths with
    | nil => exact fun t _ h ↦ h
    | cons path rest ih =>
      intro t own h
      rw [List.forall_mem_cons] at own
      exact ih _ own.2 (h.setParameter own.1 _)
  exact along s.coupled _ coupled (h.setParameter lead value)

/-- A stepper sets the parameters that it steps and no others. -/
theorem run_laid (lead : N s.lead.name) (coupled : ∀ path ∈ s.coupled, N path.name)
    (h : (e.rig.withTrack (e.rig.track.setForwarding true)).Laid layer N L B true) :
    Ends s.run e
      (fun _ e' ↦ e'.rig.Laid layer N L B true ∧ e.newton.battery.Alike e'.newton.battery)
      (fun stop e' ↦ stop.Routine ∧ e'.rig.Laid layer N L B true ∧
        e.newton.battery.Alike e'.newton.battery) := by
  let I : Rig δ α n → Prop := Rig.Laid layer N L B true
  have carries : s.Carries I I I I (fun _ ↦ True) fun _ ↦ True := {
    toCarries := Rig.keeps_laid.carries
    set := fun h value ↦ setAll_laid h lead coupled value
    back := fun {_ x} h _ ↦ Rig.keeps_laid.move h x
    accept := fun h ↦ h.of_lays (Rig.keepsSteps_lays.accept h.toLays) rfl
    abandon := fun h ↦ h.of_lays (Rig.keepsSteps_lays.abandon h.toLays) rfl }
  refine ((run_carries carries h).and
    (run_keeps Rig.keepsSteps_lays.routine h.toLays)).mono ?_ ?_
  · exact fun _ e' run ↦ ⟨run.1.1, run.2.alike⟩
  · exact fun _ e' run ↦ ⟨run.2.1, run.1, run.2.2.alike⟩

end Stepper

end OperatingPoint
