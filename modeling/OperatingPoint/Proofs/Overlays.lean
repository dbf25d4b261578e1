import OperatingPoint.Proofs.Computations
import OperatingPoint.Proofs.LinearSolve

/-!
# What an overlay keeps while it is used

Loads change an overlay: a progress variable moves, a shift is noted, a seed is used up.  What it is
laid over, and by whom it was attached, stays.  The `frame` of a strategy is the strategy without
what changes in use, and two overlays are `Alike` if they differ in nothing else.

An overlay stops a load only where it acts on an unknown that is not there, and the unknowns that it
acts on are part of its frame.
-/

set_option autoImplicit false

namespace OperatingPoint

open Step

variable {α : Type} {n : Nat} {Q : Stop → Prop}

/-! ## Access -/

theorem readAt_stops (x : Vector α n) {i : Nat} (h : n ≤ i → Q .breach) :
    StopsOnly Q (readAt x i) := by
  unfold readAt
  split
  · exact .ok _
  · rename_i outside
    exact .error (h (Nat.le_of_not_lt outside))

theorem writeAt_stops (x : Vector α n) {i : Nat} (v : α) (h : n ≤ i → Q .breach) :
    StopsOnly Q (writeAt x i v) := by
  unfold writeAt
  split
  · exact .ok _
  · rename_i outside
    exact .error (h (Nat.le_of_not_lt outside))

theorem writeAll_stops {pairs : List (Nat × α)} (h : ∀ pair ∈ pairs, n ≤ pair.1 → Q .breach)
    (x : Vector α n) : StopsOnly Q (writeAll pairs x) := by
  induction pairs generalizing x with
  | nil => exact .ok x
  | cons pair rest ih =>
    rw [List.forall_mem_cons] at h
    exact .bind (writeAt_stops x pair.2 h.1) fun x' _ ↦ ih h.2 x'

section

variable (A : Mat α n n) {i : Nat} (h : n ≤ i → Q .breach)

include h

theorem diagonalEntry_stops : StopsOnly Q (A.diagonalEntry i) := by
  unfold Mat.diagonalEntry
  split
  · exact .ok _
  · rename_i outside
    exact .error (h (Nat.le_of_not_lt fun inside ↦ outside ⟨inside, inside⟩))

theorem setDiagonalEntry_stops (v : α) : StopsOnly Q (A.setDiagonalEntry i v) := by
  unfold Mat.setDiagonalEntry
  split
  · exact .ok _
  · rename_i outside
    exact .error (h (Nat.le_of_not_lt fun inside ↦ outside ⟨inside, inside⟩))

theorem setIdentityRow_stops [Scalar α] : StopsOnly Q (A.setIdentityRow i) := by
  unfold Mat.setIdentityRow
  split
  · exact .ok _
  · rename_i outside
    exact .error (h (Nat.le_of_not_lt fun inside ↦ outside ⟨inside, inside⟩))

end

variable [Scalar α]

theorem Shift.apply_stops (s : Shift α) (A : Mat α n n) {indices : List Nat}
    (h : ∀ i ∈ indices, n ≤ i → Q .breach) (load : Nat) (amount : Nat → α) :
    StopsOnly Q (s.apply A indices load amount) := by
  have all : ∀ (entries : List (Nat × Option α)) (A : Mat α n n),
      (∀ entry ∈ entries, n ≤ entry.1 → Q .breach) → StopsOnly Q (applyAll amount entries A) := by
    intro entries
    induction entries with
    | nil => exact fun A _ ↦ .ok A
    | cons entry rest ih =>
      intro A h
      rw [List.forall_mem_cons] at h
      exact .bind (diagonalEntry_stops A h.1) fun d _ ↦
        .bind (setDiagonalEntry_stops A h.1 _) fun A' _ ↦ ih A' h.2
  refine .bind (all _ A fun entry mem ↦ ?_) fun _ _ ↦ .ok _
  split at mem
  · obtain ⟨i, old⟩ := entry
    exact h i (List.of_mem_zip mem).1
  · obtain ⟨i, there, rfl⟩ := List.mem_map.1 mem
    exact h i there

/-! ## Strategies -/

/-- A term in pseudo-time without what changes in a march. -/
def PseudoTime.frame {α : Type} [LE α] (p : PseudoTime α) : PseudoTime α :=
  { p with step := p.minStep, lastNorm := none, shift := {} }

namespace Augmentation

/-- The sets of unknowns that a strategy acts on. -/
def partitions : Augmentation α → List Partition
  | gmin g => [g.partition]
  | pseudoTransient p => [p.all]
  | clamp c => [c.partition]
  | clampWithGmin g c => [g.partition, c.partition]
  | seed s => [s.partition]

/-- A strategy without what changes in use. -/
def frame : Augmentation α → Augmentation α
  | gmin g => gmin { g with progress := 0, shift := {}, floating := IndexSet.ofList [] }
  | pseudoTransient p => pseudoTransient p.frame
  | clamp c => clamp c
  | clampWithGmin g c =>
    clampWithGmin { g with progress := 0, shift := {}, floating := IndexSet.ofList [] } c
  | seed s => seed { s with phase := .pending }

/-- All the unknowns that a strategy acts on are there. -/
def Fits (n : Nat) (a : Augmentation α) : Prop := ∀ p ∈ a.partitions, ∀ i ∈ p.indices, i < n

theorem partitions_frame (a : Augmentation α) : a.frame.partitions = a.partitions := by
  cases a <;> rfl

theorem setProgress_frame {a a' : Augmentation α} {value : α}
    (h : a.setProgress value = .ok a') : a'.frame = a.frame := by
  cases a <;> cases h <;> rfl

theorem augmentResidual_frame {a a' : Augmentation α} {x f f' : Vector α n}
    (h : a.augmentResidual x f = .ok (a', f')) : a'.frame = a.frame := by
  cases a with
  | gmin g =>
    obtain ⟨_, _, same⟩ := bind_eq_ok.1 h
    cases same
    rfl
  | pseudoTransient p =>
    cases h
    rfl
  | clamp c =>
    obtain ⟨_, _, same⟩ := bind_eq_ok.1 h
    cases same
    rfl
  | clampWithGmin g c =>
    obtain ⟨_, _, h⟩ := bind_eq_ok.1 h
    obtain ⟨_, _, same⟩ := bind_eq_ok.1 h
    cases same
    rfl
  | seed s =>
    obtain ⟨⟨s', _⟩, run, same⟩ := bind_eq_ok.1 h
    cases same
    unfold Seed.augmentResidual at run
    split at run
    · obtain ⟨_, _, same⟩ := bind_eq_ok.1 run
      cases same
      rfl
    · cases run
      rfl

theorem augmentJacobian_frame {a a' : Augmentation α} {A A' : Mat α n n} {load : Nat}
    (h : a.augmentJacobian A load = .ok (a', A')) : a'.frame = a.frame := by
  have gmin_frame : ∀ {g g' : Gmin α} {A A' : Mat α n n},
      g.augmentJacobian A load = .ok (g', A') →
        g'.partition = g.partition ∧ g'.stop = g.stop ∧ g'.floor = g.floor := by
    intro g g' A A' run
    obtain ⟨⟨_, _⟩, _, same⟩ := bind_eq_ok.1 run
    cases same
    exact ⟨rfl, rfl, rfl⟩
  cases a with
  | gmin g =>
    obtain ⟨⟨g', _⟩, run, same⟩ := bind_eq_ok.1 h
    cases same
    obtain ⟨partition, stop, floor⟩ := gmin_frame run
    simp only [frame, partition, stop, floor]
  | pseudoTransient p =>
    obtain ⟨⟨p', _⟩, run, same⟩ := bind_eq_ok.1 h
    cases same
    obtain ⟨⟨_, _⟩, _, same⟩ := bind_eq_ok.1 run
    cases same
    rfl
  | clamp c =>
    obtain ⟨_, _, same⟩ := bind_eq_ok.1 h
    cases same
    rfl
  | clampWithGmin g c =>
    obtain ⟨⟨g', _⟩, run, h⟩ := bind_eq_ok.1 h
    obtain ⟨_, _, same⟩ := bind_eq_ok.1 h
    cases same
    obtain ⟨partition, stop, floor⟩ := gmin_frame run
    simp only [frame, partition, stop, floor]
  | seed s =>
    obtain ⟨⟨s', _⟩, run, same⟩ := bind_eq_ok.1 h
    cases same
    unfold Seed.augmentJacobian at run
    split at run
    · obtain ⟨_, _, same⟩ := bind_eq_ok.1 run
      cases same
      rfl
    · cases run
      rfl

/-- A strategy stops the change of a residual only where an unknown is not there. -/
theorem augmentResidual_stops (a : Augmentation α) (h : ¬ a.Fits n → Q .breach)
    (x f : Vector α n) : StopsOnly Q (a.augmentResidual x f) := by
  have outside : ∀ {p}, p ∈ a.partitions → ∀ i ∈ p.indices, n ≤ i → Q .breach :=
    fun mem i member beyond ↦ h fun fits ↦ absurd (fits _ mem i member) (Nat.not_lt.2 beyond)
  have gmin_stops : ∀ (g : Gmin α) (f : Vector α n),
      (∀ i ∈ g.partition.indices, n ≤ i → Q .breach) → StopsOnly Q (g.augmentResidual x f) :=
    fun g f outside ↦ .foldlM (fun i mem f ↦ .bind (readAt_stops f (outside i mem)) fun _ _ ↦
      .bind (readAt_stops x (outside i mem)) fun _ _ ↦ writeAt_stops f _ (outside i mem)) f
  have clamp_stops : ∀ (c : Clamp α) (f : Vector α n),
      (∀ i ∈ c.partition.indices, n ≤ i → Q .breach) → StopsOnly Q (c.augmentResidual x f) :=
    fun c f outside ↦ .foldlM (fun pair mem f ↦
      .bind (readAt_stops x (outside _ (List.of_mem_zip mem).1)) fun _ _ ↦
        writeAt_stops f _ (outside _ (List.of_mem_zip mem).1)) f
  cases a with
  | gmin g => exact .bind (gmin_stops g f (outside (.head _))) fun _ _ ↦ .ok _
  | pseudoTransient p => exact .ok _
  | clamp c => exact .bind (clamp_stops c f (outside (.head _))) fun _ _ ↦ .ok _
  | clampWithGmin g c =>
    exact .bind (gmin_stops g f (outside (.head _))) fun f' _ ↦
      .bind (clamp_stops c f' (outside (.tail _ (.head _)))) fun _ _ ↦ .ok _
  | seed s =>
    refine .bind ?_ fun _ _ ↦ .ok _
    unfold Seed.augmentResidual
    split
    · refine .bind (writeAll_stops (fun pair mem ↦ ?_) f) fun _ _ ↦ .ok _
      obtain ⟨i, there, rfl⟩ := List.mem_map.1 mem
      exact outside (.head _) i there
    · exact .ok _

/-- A strategy stops the change of a Jacobian only where an unknown is not there. -/
theorem augmentJacobian_stops (a : Augmentation α) (h : ¬ a.Fits n → Q .breach)
    (A : Mat α n n) (load : Nat) : StopsOnly Q (a.augmentJacobian A load) := by
  have outside : ∀ {p}, p ∈ a.partitions → ∀ i ∈ p.indices, n ≤ i → Q .breach :=
    fun mem i member beyond ↦ h fun fits ↦ absurd (fits _ mem i member) (Nat.not_lt.2 beyond)
  have rows_stop : ∀ {indices : List Nat} (A : Mat α n n),
      (∀ i ∈ indices, n ≤ i → Q .breach) →
        StopsOnly Q (indices.foldlM (fun A i ↦ A.setIdentityRow i) A) :=
    fun A outside ↦ .foldlM (fun i mem A ↦ setIdentityRow_stops A (outside i mem)) A
  cases a with
  | gmin g =>
    exact .bind (.bind (g.shift.apply_stops A (outside (.head _)) _ _) fun _ _ ↦ .ok _)
      fun _ _ ↦ .ok _
  | pseudoTransient p =>
    exact .bind (.bind (p.shift.apply_stops A (outside (.head _)) _ _) fun _ _ ↦ .ok _)
      fun _ _ ↦ .ok _
  | clamp c => exact .bind (rows_stop A (outside (.head _))) fun _ _ ↦ .ok _
  | clampWithGmin g c =>
    refine .bind (.bind (g.shift.apply_stops A (outside (.head _)) _ _) fun _ _ ↦ .ok _) ?_
    exact fun p _ ↦ .bind (rows_stop p.2 (outside (.tail _ (.head _)))) fun _ _ ↦ .ok _
  | seed s =>
    refine .bind ?_ fun _ _ ↦ .ok _
    unfold Seed.augmentJacobian
    split
    · exact .bind (rows_stop A (outside (.head _))) fun _ _ ↦ .ok _
    · exact .ok _

end Augmentation

/-! ## Overlays -/

namespace Overlay

/-- All the unknowns that an overlay acts on are there. -/
def Fits (n : Nat) (o : Overlay α) : Prop := ∀ a, o.strategy = some a → a.Fits n

/-- Two overlays that differ only in what changes in use. -/
structure Alike (o o' : Overlay α) : Prop where
  parameters : o'.parameters = o.parameters
  forwarding : o'.forwarding = o.forwarding
  strategy : o'.strategy.map Augmentation.frame = o.strategy.map Augmentation.frame
  blend : o'.blend.map Blend.start = o.blend.map Blend.start

variable {o o' o'' : Overlay α}

/-- What the blend makes of a residual, if there is one. -/
def blendResidual (o : Overlay α) (x f : Vector α n) : Vector α n :=
  match o.blend with
  | some b => b.augmentResidual x f
  | none => f

/-- What the blend makes of a Jacobian, if there is one. -/
def blendJacobian (o : Overlay α) (A : Mat α n n) : Mat α n n :=
  match o.blend with
  | some b => b.augmentJacobian A
  | none => A

theorem augmentResidual_none (h : o.strategy = none) (x f : Vector α n) :
    o.augmentResidual x f = .ok (o, o.blendResidual x f) := by
  obtain ⟨parameters, strategy, blend, forwarding⟩ := o
  cases h
  rfl

theorem augmentResidual_some {a : Augmentation α} (h : o.strategy = some a) (x f : Vector α n) :
    o.augmentResidual x f = (do
      let p ← a.augmentResidual x f
      return ({ o with strategy := some p.1 }, o.blendResidual x p.2)) := by
  obtain ⟨parameters, strategy, blend, forwarding⟩ := o
  cases h
  unfold augmentResidual
  dsimp only
  cases a.augmentResidual x f with
  | ok p => rfl
  | error e => rfl

theorem augmentJacobian_none (h : o.strategy = none) (load : Nat) (A : Mat α n n) :
    o.augmentJacobian load A = .ok (o, o.blendJacobian A) := by
  obtain ⟨parameters, strategy, blend, forwarding⟩ := o
  cases h
  rfl

theorem augmentJacobian_some {a : Augmentation α} (h : o.strategy = some a) (load : Nat)
    (A : Mat α n n) :
    o.augmentJacobian load A = (do
      let p ← a.augmentJacobian A load
      return ({ o with strategy := some p.1 }, o.blendJacobian p.2)) := by
  obtain ⟨parameters, strategy, blend, forwarding⟩ := o
  cases h
  unfold augmentJacobian
  dsimp only
  cases a.augmentJacobian A load with
  | ok p => rfl
  | error e => rfl

theorem Alike.refl (o : Overlay α) : o.Alike o := ⟨rfl, rfl, rfl, rfl⟩

theorem Alike.trans (h : o.Alike o') (h' : o'.Alike o'') : o.Alike o'' :=
  ⟨h'.parameters.trans h.parameters, h'.forwarding.trans h.forwarding,
    h'.strategy.trans h.strategy, h'.blend.trans h.blend⟩

theorem Alike.fits (h : o.Alike o') (fits : o.Fits n) : o'.Fits n := by
  intro a' there
  have same := h.strategy
  rw [there] at same
  cases before : o.strategy with
  | none =>
    rw [before] at same
    cases same
  | some a =>
    rw [before] at same
    have frame : a'.frame = a.frame := Option.some.inj same
    have fits := fits a before
    rw [Augmentation.Fits, ← Augmentation.partitions_frame, ← frame,
      Augmentation.partitions_frame] at fits
    exact fits

theorem setProgress_alike {value : α} (h : o.setProgress value = .ok o') : o.Alike o' := by
  unfold setProgress at h
  split at h
  · rename_i a before
    obtain ⟨a', progress, same⟩ := bind_eq_ok.1 h
    cases same
    refine ⟨rfl, rfl, ?_, rfl⟩
    rw [before]
    exact congrArg some (Augmentation.setProgress_frame progress)
  · cases h

theorem setBlend_alike {value : α} (h : o.setBlend value = .ok o') : o.Alike o' := by
  unfold setBlend at h
  split at h
  · rename_i b before
    cases h
    refine ⟨rfl, rfl, rfl, ?_⟩
    rw [before]
    rfl
  · cases h

theorem augmentResidual_alike {x f f' : Vector α n} (h : o.augmentResidual x f = .ok (o', f')) :
    o.Alike o' := by
  cases before : o.strategy with
  | none =>
    rw [augmentResidual_none before] at h
    cases h
    exact .refl o
  | some a =>
    rw [augmentResidual_some before] at h
    obtain ⟨⟨a', _⟩, run, same⟩ := bind_eq_ok.1 h
    cases same
    refine ⟨rfl, rfl, ?_, rfl⟩
    rw [before]
    exact congrArg some (Augmentation.augmentResidual_frame run)

theorem augmentJacobian_alike {A A' : Mat α n n} {load : Nat}
    (h : o.augmentJacobian load A = .ok (o', A')) : o.Alike o' := by
  cases before : o.strategy with
  | none =>
    rw [augmentJacobian_none before] at h
    cases h
    exact .refl o
  | some a =>
    rw [augmentJacobian_some before] at h
    obtain ⟨⟨a', _⟩, run, same⟩ := bind_eq_ok.1 h
    cases same
    refine ⟨rfl, rfl, ?_, rfl⟩
    rw [before]
    exact congrArg some (Augmentation.augmentJacobian_frame run)

theorem augmentResidual_stops (h : ¬ o.Fits n → Q .breach) (x f : Vector α n) :
    StopsOnly Q (o.augmentResidual x f) := by
  cases there : o.strategy with
  | none =>
    rw [augmentResidual_none there]
    exact .ok _
  | some a =>
    rw [augmentResidual_some there]
    refine .bind (a.augmentResidual_stops (fun unfit ↦ h fun fits ↦ unfit ?_) x f) fun _ _ ↦ .ok _
    exact fits a there

theorem augmentJacobian_stops (h : ¬ o.Fits n → Q .breach) (load : Nat) (A : Mat α n n) :
    StopsOnly Q (o.augmentJacobian load A) := by
  cases there : o.strategy with
  | none =>
    rw [augmentJacobian_none there]
    exact .ok _
  | some a =>
    rw [augmentJacobian_some there]
    refine .bind (a.augmentJacobian_stops (fun unfit ↦ h fun fits ↦ unfit ?_) A load)
      fun _ _ ↦ .ok _
    exact fits a there

end Overlay

/-! ## Rigs -/

namespace Rig

variable {δ : Type} [DirectSolver α] {r r' r'' : Rig δ α n}

/-- From a rig to another one that is set up in the same way. -/
structure Frames (r r' : Rig δ α n) : Prop where
  overlay : r.track.overlay.Alike r'.track.overlay
  captured : r'.track.captured = r.track.captured
  options : r'.store.workspace.options = r.store.workspace.options
  communicator : r'.store.communicator = r.store.communicator
  previous : r'.store.previous = r.store.previous

theorem Frames.refl (r : Rig δ α n) : r.Frames r := ⟨.refl _, rfl, rfl, rfl, rfl⟩

theorem Frames.trans (h : r.Frames r') (h' : r'.Frames r'') : r.Frames r'' :=
  ⟨h.overlay.trans h'.overlay, h'.captured.trans h.captured, h'.options.trans h.options,
    h'.communicator.trans h.communicator, h'.previous.trans h.previous⟩

theorem computeNewton_frames (r : Rig δ α n) (mayReuse : Bool) :
    Ends (computeNewton mayReuse) r (fun _ r' ↦ r.Frames r') (fun _ r' ↦ r.Frames r') := by
  have options : ∀ reuse, Ends (Workspace.solve (Table.ofSquare r.store.jacobian)
      (Store.rightHandSide r.store.residual) reuse) r.store.workspace
      (fun _ w ↦ w.options = r.store.workspace.options)
      (fun _ w ↦ w.options = r.store.workspace.options) :=
    fun reuse ↦ Workspace.ends_solve_options _ _ reuse _
  refine .of_result (computeNewton_run r mayReuse) ?_ ?_
  · intro ok r' run
    cases run with
    | known => exact .refl r
    | solved _ _ _ run =>
      have kept := (options _).ok run
      exact ⟨.refl _, rfl, kept, rfl, rfl⟩
    | refused _ _ _ run =>
      have kept := (options _).error run
      exact ⟨.refl _, rfl, kept, rfl, rfl⟩
  · intro e r' run
    cases run with
    | noResidual => exact .refl r
    | noJacobian => exact .refl r
    | stopped _ _ _ _ run =>
      have kept := (options _).error run
      exact ⟨.refl _, rfl, kept, rfl, rfl⟩

variable [Device δ α]

/-- What changes of the overlay keep is kept by forwarding. -/
theorem forward_overlay {K : Overlay α → Prop}
    (progress : ∀ {o o' value}, K o → o.setProgress value = .ok o' → K o')
    (blend : ∀ {o o' value}, K o → o.setBlend value = .ok o' → K o') (h : K r.track.overlay) :
    Ends forward r (fun _ r' ↦ K r'.track.overlay) (fun _ r' ↦ K r'.track.overlay) := by
  have one : ∀ (name : String) (value : α) (r : Rig δ α n), K r.track.overlay →
      Ends (forwardOne name value) r (fun _ r' ↦ K r'.track.overlay)
        (fun _ r' ↦ K r'.track.overlay) := by
    intro name value r h
    unfold forwardOne giveToDevice
    simp only [ends_bind, ends_get, ends_set, ends_ite, ends_orFault, ends_pure, ends_fault]
    refine ⟨fun _ ↦ ⟨fun overlay changed ↦ ?_, fun _ _ ↦ h⟩, fun _ ↦ ⟨fun _ ↦ h, fun _ ↦ h⟩⟩
    split at changed
    · exact progress h changed
    · exact blend h changed
  have all : ∀ (entries : List (String × α)) (r : Rig δ α n), K r.track.overlay →
      Ends (forwardAll entries) r (fun _ r' ↦ K r'.track.overlay)
        (fun _ r' ↦ K r'.track.overlay) := by
    intro entries
    induction entries with
    | nil => exact fun r h ↦ h
    | cons entry rest ih =>
      intro r h
      rw [forwardAll, ends_bind]
      exact (one entry.1 entry.2 r h).mono (fun _ r' h' ↦ ih r' h') fun _ _ h' ↦ h'
  unfold forward
  simp only [ends_bind, ends_get, ends_ite, ends_pure]
  exact ⟨fun _ ↦ all _ r h, fun _ ↦ h⟩

theorem forward_alike (r : Rig δ α n) :
    Ends forward r (fun _ r' ↦ r.track.overlay.Alike r'.track.overlay)
      (fun _ r' ↦ r.track.overlay.Alike r'.track.overlay) :=
  forward_overlay (fun h changed ↦ h.trans (Overlay.setProgress_alike changed))
    (fun h changed ↦ h.trans (Overlay.setBlend_alike changed)) (.refl _)

theorem computeResidual_frames (r : Rig δ α n) :
    Ends computeResidual r (fun _ r' ↦ r.Frames r') (fun _ r' ↦ r.Frames r') := by
  have forwarded := forward_alike r.computing
  refine .of_result (computeResidual_run r) ?_ ?_
  · intro ok r' run
    cases run with
    | known => exact .refl r
    | unloaded invalid run =>
      have alike := forwarded.ok run
      exact ⟨alike, rfl, rfl, rfl, rfl⟩
    | loaded invalid run call good augmented =>
      have alike := forwarded.ok run
      exact ⟨alike.trans (Overlay.augmentResidual_alike augmented), rfl, rfl, rfl, rfl⟩
  · intro e r' run
    cases run with
    | reentered => exact .refl r
    | refused invalid run =>
      have alike := forwarded.error run
      exact ⟨alike, rfl, rfl, rfl, rfl⟩
    | stuck invalid run =>
      have alike := forwarded.ok run
      exact ⟨alike, rfl, rfl, rfl, rfl⟩

theorem Refreshed.frames (base : Refreshed r r') : r.Frames r' := by
  cases base with
  | already => exact .refl r
  | renewed needed run =>
    have frames := (computeResidual_frames r.outdated).ok run
    exact ⟨frames.overlay, frames.captured, frames.options, frames.communicator, frames.previous⟩

theorem computeJacobian_frames (r : Rig δ α n) :
    Ends computeJacobian r (fun _ r' ↦ r.Frames r') (fun _ r' ↦ r.Frames r') := by
  refine .of_result (computeJacobian_run r) ?_ ?_
  · intro ok r' run
    cases run with
    | known => exact .refl r
    | unrefreshed invalid needed run =>
      have frames := (computeResidual_frames r.outdated).ok run
      exact ⟨frames.overlay, frames.captured, frames.options, frames.communicator,
        frames.previous⟩
    | unloaded invalid base => exact base.frames.trans ⟨.refl _, rfl, rfl, rfl, rfl⟩
    | loaded invalid base call good augmented =>
      exact base.frames.trans ⟨Overlay.augmentJacobian_alike augmented, rfl, rfl, rfl, rfl⟩
  · intro e r' run
    cases run with
    | reentered => exact .refl r
    | refused invalid needed run =>
      have frames := (computeResidual_frames r.outdated).error run
      exact ⟨frames.overlay, frames.captured, frames.options, frames.communicator,
        frames.previous⟩
    | stuck invalid base => exact base.frames.trans ⟨.refl _, rfl, rfl, rfl, rfl⟩

end Rig

end OperatingPoint
