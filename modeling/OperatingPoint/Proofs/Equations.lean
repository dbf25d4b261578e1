import OperatingPoint.Proofs.DeviceStates
import OperatingPoint.Proofs.PureDevice
import OperatingPoint.Proofs.MarchRun
import OperatingPoint.Proofs.StepperRun

/-!
# The equations behind a residual

The stored residual is not that of the device equations, but what the overlay makes of it, with the
parameters that were forwarded last.  `Rig.Mirrors` says that a valid residual is still that: the
overlay at hand, put to the device equations at hand, gives the residual that is stored, and it has
the values of the parameters.

This holds for overlays that answer twice in the same way.  A seed does not, so it has no place
here.  Conductances to reference do as long as no unknown is without an element, since otherwise a
load of the Jacobian changes what the next residual would be.
-/

set_option autoImplicit false

namespace OperatingPoint

open Step

variable {α : Type} [Scalar α] {n : Nat}

/-! ## What parameters do to an overlay -/

namespace Overlay

variable {o o' : Overlay α}

/-- What an overlay does with a parameter that is forwarded. -/
def receive (o : Overlay α) (name : String) (value : α) : Except Fault (Overlay α) :=
  if name = Parameters.progressName then o.setProgress value
  else if name = Parameters.blendName then o.setBlend value
  else .ok o

/-- The progress of the conductances, if that is what is attached. -/
def conductanceProgress? (o : Overlay α) : Option α :=
  match o.strategy with
  | some (.gmin g) => some g.progress
  | _ => none

/-- The conductances and the blend have the values of their parameters. -/
structure Serves (o : Overlay α) : Prop where
  progress : ∀ {v g}, o.parameters.get? Parameters.progressName = some v →
    o.strategy = some (.gmin g) → g.progress = v
  lambda : ∀ {v b}, o.parameters.get? Parameters.blendName = some v → o.blend = some b →
    b.lambda = Scalar.clamp v 0 1

theorem setProgress_conductance {value : α} (h : o.setProgress value = .ok o') :
    o'.conductanceProgress? = o.conductanceProgress?.map (fun _ ↦ value) ∧
      o'.blend = o.blend := by
  unfold setProgress at h
  split at h
  · rename_i a before
    obtain ⟨a', changed, same⟩ := bind_eq_ok.1 h
    cases same
    refine ⟨?_, rfl⟩
    rw [conductanceProgress?, conductanceProgress?, before]
    cases a <;> cases changed <;> rfl
  · cases h

theorem setBlend_lambda {value : α} (h : o.setBlend value = .ok o') :
    o'.blend.map Blend.lambda =
        (o.blend.map Blend.lambda).map (fun _ ↦ Scalar.clamp value 0 1) ∧
      o'.strategy = o.strategy := by
  unfold setBlend at h
  split at h
  · rename_i b before
    cases h
    refine ⟨?_, rfl⟩
    rw [before]
    rfl
  · cases h

/-- What reaches a part of the overlay under its own name changes that part, and nothing else
does. -/
structure Reads (name : String) (part : Overlay α → Option α) (write : α → α) : Prop where
  own : ∀ {o o' value}, receive o name value = .ok o' →
    part o' = (part o).map fun _ ↦ write value
  other : ∀ {o o' name' value}, name' ≠ name → receive o name' value = .ok o' → part o' = part o

theorem reads_progress :
    Reads Parameters.progressName (conductanceProgress? (α := α)) fun v ↦ v where
  own h := (setProgress_conductance h).1
  other := by
    intro o o' name' value other h
    unfold receive at h
    rw [if_neg other] at h
    split at h
    · rw [conductanceProgress?, conductanceProgress?, (setBlend_lambda h).2]
    · cases h
      rfl

theorem reads_blend :
    Reads Parameters.blendName (fun o : Overlay α ↦ o.blend.map Blend.lambda)
      (fun v ↦ Scalar.clamp v 0 1) where
  own h := (setBlend_lambda h).1
  other := by
    intro o o' name' value other h
    unfold receive at h
    split at h
    · rw [(setProgress_conductance h).2]
    · cases h
      rfl

theorem augmentJacobian_serves {A A' : Mat α n n} {load : Nat} (h : o.Serves)
    (run : o.augmentJacobian load A = .ok (o', A')) : o'.Serves := by
  cases before : o.strategy with
  | none =>
    rw [augmentJacobian_none before] at run
    cases run
    exact h
  | some a =>
    rw [augmentJacobian_some before] at run
    obtain ⟨⟨a', _⟩, changed, same⟩ := bind_eq_ok.1 run
    cases same
    refine ⟨fun {v g} there attached ↦ ?_, h.lambda⟩
    cases attached
    cases a with
    | gmin g₀ =>
      obtain ⟨⟨g₁, _⟩, shifted, same⟩ := bind_eq_ok.1 changed
      cases same
      obtain ⟨⟨_, _⟩, _, same⟩ := bind_eq_ok.1 shifted
      cases same
      show g₀.progress = v
      exact h.progress there before
    | pseudoTransient p =>
      obtain ⟨_, _, same⟩ := bind_eq_ok.1 changed
      cases same
    | clamp c =>
      obtain ⟨_, _, same⟩ := bind_eq_ok.1 changed
      cases same
    | clampWithGmin g₀ c =>
      obtain ⟨_, _, changed⟩ := bind_eq_ok.1 changed
      obtain ⟨_, _, same⟩ := bind_eq_ok.1 changed
      cases same
    | seed s =>
      obtain ⟨_, _, same⟩ := bind_eq_ok.1 changed
      cases same

end Overlay

namespace Rig

variable {δ : Type} [DirectSolver α] [Device δ α] {r : Rig δ α n}

/-- The values that are forwarded are those that a part of the overlay has afterwards. -/
theorem forwardAll_reads {name : String} {part : Overlay α → Option α} {write : α → α}
    (reads : Overlay.Reads name part write) {entries : List (String × α)}
    (distinct : (entries.map Prod.fst).Nodup) :
    Ends (forwardAll entries) r
      (fun _ r' ↦ ∀ v, entries.lookup name = some v →
        part r'.track.overlay = (part r.track.overlay).map fun _ ↦ write v)
      (fun _ _ ↦ True) := by
  have one : ∀ (entry : String × α) (r : Rig δ α n), Ends (forwardOne entry.1 entry.2) r
      (fun _ r' ↦ r.track.overlay.receive entry.1 entry.2 = .ok r'.track.overlay)
      (fun _ _ ↦ True) := by
    intro entry r
    unfold forwardOne giveToDevice Overlay.receive
    simp only [ends_bind, ends_get, ends_set, ends_ite, ends_orFault, ends_pure, ends_fault]
    refine ⟨fun reserved ↦ ⟨fun overlay changed ↦ ?_, fun _ _ ↦ trivial⟩, fun free ↦ ?_⟩
    · rw [← changed]
      split
      · rfl
      · rename_i other
        rw [if_pos (reserved.resolve_left other)]
    · rw [not_or] at free
      rw [if_neg free.1, if_neg free.2]
      exact ⟨fun _ ↦ rfl, fun _ ↦ trivial⟩
  -- What comes under other names leaves the part as it is.
  have silent : ∀ (entries : List (String × α)) (r : Rig δ α n), name ∉ entries.map Prod.fst →
      Ends (forwardAll entries) r (fun _ r' ↦ part r'.track.overlay = part r.track.overlay)
        (fun _ _ ↦ True) := by
    intro entries
    induction entries with
    | nil => exact fun r _ ↦ rfl
    | cons entry rest ih =>
      intro r absent
      rw [List.map_cons, List.mem_cons, not_or] at absent
      rw [forwardAll, ends_bind]
      refine (one entry r).mono (fun _ r₁ received ↦ ?_) fun _ _ h ↦ h
      have same := reads.other (Ne.symm absent.1) received
      exact (ih r₁ absent.2).mono (fun _ _ same' ↦ same'.trans same) fun _ _ h ↦ h
  induction entries generalizing r with
  | nil =>
    intro v there
    cases there
  | cons entry rest ih =>
    rw [List.map_cons, List.nodup_cons] at distinct
    rw [forwardAll, ends_bind]
    refine (one entry r).mono (fun _ r₁ received ↦ ?_) fun _ _ h ↦ h
    by_cases own : name = entry.1
    · subst own
      refine (silent rest r₁ distinct.1).mono (fun _ r₂ same v there ↦ ?_) fun _ _ h ↦ h
      rw [List.lookup_cons, beq_self_eq_true] at there
      cases there
      rw [same]
      exact reads.own received
    · have same := reads.other (Ne.symm own) received
      refine (ih distinct.2).mono (fun _ r₂ later v there ↦ ?_) fun _ _ h ↦ h
      rw [List.lookup_cons, beq_eq_false_iff_ne.2 own] at there
      rw [later v there, same]

end Rig

/-! ## Conductances without loose ends -/

/-- No unknown of a partition is without an element: whatever state a device layer comes to, its row
of a Jacobian has an entry. -/
def Partition.Tied {δ α : Type} [Scalar α] [Device δ α] (p : Partition) (layer : δ) (n : Nat) :
    Prop :=
  ∀ device, Device.Reaches layer device → ∀ x previous : Vector α n,
    (Device.loadJacobian device x previous (Mat.zero α n n)).ok = true →
      ∀ i ∈ p.indices,
        Gmin.rowIsEmpty (Device.loadJacobian device x previous (Mat.zero α n n)).buffer i = false

/-- A strategy that changes a residual in the same way whenever it is asked to. -/
def Augmentation.Steadfast {δ : Type} [Device δ α] (a : Augmentation α) (layer : δ) (n : Nat) :
    Prop :=
  ∃ g : Gmin α, a = .gmin g ∧ g.partition.Tied layer n

theorem Gmin.tie_of_settled {g : Gmin α} (h : g.floating.size = 0) (i : Nat) :
    g.tie i = g.conductance := by
  unfold Gmin.tie IndexSet.contains IndexSet.search
  rw [h]
  rfl

/-- Conductances that tie nothing else change a residual by what they conduct. -/
theorem Gmin.augmentResidual_congr {k m : Nat} {g g' : Gmin α} (settled : g.floating.size = 0)
    (settled' : g'.floating.size = 0) (partition : g'.partition = g.partition)
    (conductance : g'.conductance = g.conductance) (x : Vector α k) (f : Vector α m) :
    g'.augmentResidual x f = g.augmentResidual x f := by
  unfold augmentResidual
  simp only [tie_of_settled settled, tie_of_settled settled', partition, conductance]

theorem Gmin.augmentJacobian_settled {g g' : Gmin α} {A A' : Mat α n n} {load : Nat}
    (settled : g.floating.size = 0)
    (rows : ∀ i ∈ g.partition.indices, rowIsEmpty A i = false)
    (run : g.augmentJacobian A load = .ok (g', A')) :
    g'.floating.size = 0 ∧ g'.partition = g.partition ∧ g'.conductance = g.conductance := by
  obtain ⟨⟨_, _⟩, _, same⟩ := bind_eq_ok.1 run
  cases same
  refine ⟨?_, rfl, rfl⟩
  show (if g.shift.isFresh load = true then g.partition.members.filter (rowIsEmpty A)
    else g.floating).size = 0
  split
  · have empty : g.partition.members.toList.filter (rowIsEmpty A) = [] :=
      List.filter_eq_nil_iff.2 fun i mem ↦ by
        rw [rows i mem]
        exact Bool.false_ne_true
    show (g.partition.members.toList.filter (rowIsEmpty A)).toArray.size = 0
    rw [empty]
    rfl
  · exact settled

theorem Augmentation.Steadfast.of_frame {δ : Type} [Device δ α] {layer : δ} {a : Augmentation α}
    (h : a.frame.Steadfast layer n) : a.Steadfast layer n := by
  obtain ⟨g, same, tied⟩ := h
  cases a with
  | gmin g₀ =>
    cases same
    exact ⟨g₀, rfl, tied⟩
  | pseudoTransient | clamp | clampWithGmin | seed => cases same

namespace Overlay

variable {δ : Type} [Device δ α] {layer : δ} {o o' : Overlay α} {x f f' : Vector α n}

/-- No unknown is taken for one without an element. -/
def Settled (o : Overlay α) : Prop := ∀ g, o.strategy = some (.gmin g) → g.floating.size = 0

theorem augmentResidual_steadfast (firm : ∀ a, o.strategy = some a → a.Steadfast layer n)
    (run : o.augmentResidual x f = .ok (o', f')) : o' = o := by
  cases there : o.strategy with
  | none =>
    rw [augmentResidual_none there] at run
    cases run
    rfl
  | some a =>
    obtain ⟨g, rfl, -⟩ := firm a there
    rw [augmentResidual_some there] at run
    obtain ⟨⟨a', _⟩, changed, same⟩ := bind_eq_ok.1 run
    obtain ⟨_, _, same'⟩ := bind_eq_ok.1 changed
    cases same'
    cases same
    rw [← there]

/-- A load of the Jacobian does not change what the overlay makes of a residual. -/
theorem augmentJacobian_steadfast (firm : ∀ a, o.strategy = some a → a.Steadfast layer n)
    (settled : o.Settled) {device : δ} (reached : Device.Reaches layer device)
    {previous : Vector α n}
    (good : (Device.loadJacobian device x previous (Mat.zero α n n)).ok = true) {A' : Mat α n n}
    {load : Nat} (run : o.augmentJacobian load
      (Device.loadJacobian device x previous (Mat.zero α n n)).buffer = .ok (o', A')) :
    o'.Settled ∧ ∀ {f f' : Vector α n}, o.augmentResidual x f = .ok (o, f') →
      o'.augmentResidual x f = .ok (o', f') := by
  cases there : o.strategy with
  | none =>
    rw [augmentJacobian_none there] at run
    cases run
    exact ⟨settled, fun shown ↦ shown⟩
  | some a =>
    obtain ⟨g, rfl, tied⟩ := firm a there
    rw [augmentJacobian_some there] at run
    obtain ⟨⟨a', _⟩, changed, same⟩ := bind_eq_ok.1 run
    obtain ⟨⟨g', _⟩, shifted, same'⟩ := bind_eq_ok.1 changed
    cases same'
    cases same
    obtain ⟨settled', partition, conductance⟩ :=
      Gmin.augmentJacobian_settled (settled g there) (tied device reached x previous good) shifted
    refine ⟨fun g'' attached ↦ ?_, fun {f f'} shown ↦ ?_⟩
    · cases attached
      exact settled'
    · have same : ∀ f : Vector α n, Gmin.augmentResidual g' x f = Gmin.augmentResidual g x f :=
        fun f ↦ Gmin.augmentResidual_congr (settled g there) settled' partition conductance x f
      rw [augmentResidual_some there] at shown
      obtain ⟨⟨_, f₁⟩, made, same₁⟩ := bind_eq_ok.1 shown
      obtain ⟨f₂, conducted, same₂⟩ := bind_eq_ok.1 made
      cases same₂
      obtain ⟨-, rfl⟩ := Prod.mk.inj (Except.ok.inj same₁)
      rw [augmentResidual_some (a := .gmin g') rfl]
      refine bind_eq_ok.2 ⟨(.gmin g', f₁), bind_eq_ok.2 ⟨f₁, ?_, rfl⟩, rfl⟩
      rw [same, conducted]

end Overlay

/-! ## What is laid over the equations -/

namespace Rig

variable {δ : Type} [DirectSolver α] [Device δ α] {layer : δ} {r r' : Rig δ α n}

/-- A rig between two computations under a strategy of frame `S`, a blend that starts at `B`, and
parameters under different names, with a device layer that was `layer` in the beginning. -/
structure Lays (layer : δ) (S : Option (Augmentation α)) (B : Option (Array α)) (forwarding : Bool)
    (r : Rig δ α n) : Prop where
  rest : r.AtRest
  holds : r.Holds layer
  names : (r.track.overlay.parameters.entries.map Prod.fst).Nodup
  strategy : r.track.overlay.strategy.map Augmentation.frame = S
  blend : r.track.overlay.blend.map Blend.start = B
  forwarding : r.track.overlay.forwarding = forwarding

variable {S : Option (Augmentation α)} {B : Option (Array α)} {forwarding : Bool}

theorem Lays.of_frames (h : r.Lays layer S B forwarding) (holds : r'.Holds layer)
    (rest : r'.AtRest) (frames : r.Frames r') : r'.Lays layer S B forwarding where
  rest := rest
  holds := holds
  names := by
    rw [frames.overlay.parameters]
    exact h.names
  strategy := frames.overlay.strategy.trans h.strategy
  blend := frames.overlay.blend.trans h.blend
  forwarding := frames.overlay.forwarding.trans h.forwarding

theorem Lays.outdated (h : r.Lays layer S B forwarding) : r.outdated.Lays layer S B forwarding :=
  ⟨h.rest.outdated, h.holds, h.names, h.strategy, h.blend, h.forwarding⟩

theorem Lays.firm (h : r.Lays layer S B forwarding)
    (firm : ∀ a, S = some a → a.Steadfast layer n) {o : Overlay α} (alike : r.track.overlay.Alike o)
    (a : Augmentation α) (there : o.strategy = some a) : a.Steadfast layer n := by
  refine .of_frame (firm _ ?_)
  rw [← h.strategy, ← alike.strategy, there]
  rfl

theorem keeps_lays : Keeps (Lays (n := n) layer S B forwarding) fun _ ↦ True where
  rest h := h.rest
  move h x := ⟨h.rest.move x, h.holds, h.names, h.strategy, h.blend, h.forwarding⟩
  residual {r} h :=
    (((keeps_frames r).residual ⟨h.rest, .refl r⟩).and (computeResidual_holds r h.holds)).mono
      (fun _ _ kept ↦ h.of_frames kept.2 kept.1.1 kept.1.2)
      fun _ _ kept ↦ ⟨trivial, h.of_frames kept.2 kept.1.2.1 kept.1.2.2⟩
  jacobian {r} h :=
    (((keeps_frames r).jacobian ⟨h.rest, .refl r⟩).and (computeJacobian_holds r h.holds)).mono
      (fun _ _ kept ↦ h.of_frames kept.2 kept.1.1 kept.1.2)
      fun _ _ kept ↦ ⟨trivial, h.of_frames kept.2 kept.1.2.1 kept.1.2.2⟩
  newton {r} h valid mayReuse ready :=
    (((keeps_frames r).newton ⟨h.rest, .refl r⟩ valid mayReuse ready).and
      (computeNewton_holds mayReuse r h.holds)).mono
      (fun _ _ kept ↦ h.of_frames kept.2 kept.1.1 kept.1.2)
      fun _ _ kept ↦ ⟨trivial, h.of_frames kept.2 kept.1.2.1 kept.1.2.2⟩

/-! ## What a residual shows -/

variable {P : PureDevice δ α}

/-- The residual of the device equations, with the parameters as they are. -/
def equations (P : PureDevice δ α) (r : Rig δ α n) : Vector α n :=
  P.residual (P.view r.store.device) r.track.iterate.x r.store.previous

theorem Redirects.equations (h : r.Redirects r') (P : PureDevice δ α) :
    r'.equations P = r.equations P := by
  unfold Rig.equations
  rw [h.device, h.x, h.previous]

/-- A valid residual is what the overlay makes of the device equations. -/
structure Mirrors (P : PureDevice δ α) (r : Rig δ α n) : Prop where
  settled : r.track.overlay.Settled
  shows : r.isValid .residual = true →
    r.track.overlay.augmentResidual r.track.iterate.x (r.equations P) =
      .ok (r.track.overlay, r.store.residual)
  serves : r.isValid .residual = true → r.track.overlay.forwarding = true →
    r.track.overlay.Serves

theorem Mirrors.of_invalid (settled : r.track.overlay.Settled)
    (invalid : r.isValid .residual = false) : r.Mirrors P := by
  refine ⟨settled, fun valid ↦ ?_, fun valid ↦ ?_⟩
  all_goals
    rw [invalid] at valid
    cases valid

/-- Nothing has changed that the residual depends on. -/
theorem Mirrors.of_same (h : r.Mirrors P) (overlay : r'.track.overlay = r.track.overlay)
    (equations : r'.equations P = r.equations P)
    (x : r'.track.iterate.x = r.track.iterate.x)
    (residual : r'.store.residual = r.store.residual)
    (valid : r'.isValid .residual = true → r.isValid .residual = true) : r'.Mirrors P := by
  refine ⟨?_, fun valid' ↦ ?_, fun valid' ↦ ?_⟩
  · rw [overlay]
    exact h.settled
  · rw [overlay, equations, x, residual]
    exact h.shows (valid valid')
  · rw [overlay]
    exact h.serves (valid valid')

theorem forward_settled (h : r.track.overlay.Settled) :
    Ends forward r (fun _ r' ↦ r'.track.overlay.Settled) (fun _ r' ↦ r'.track.overlay.Settled) := by
  refine forward_overlay (K := Overlay.Settled) ?_ ?_ h
  · intro o o' value settled changed g attached
    unfold Overlay.setProgress at changed
    split at changed
    · rename_i a there
      obtain ⟨a', progressed, same⟩ := bind_eq_ok.1 changed
      cases same
      cases attached
      cases a with
      | gmin g₀ =>
        cases progressed
        show g₀.floating.size = 0
        exact settled g₀ there
      | pseudoTransient | clamp | clampWithGmin | seed => cases progressed
    · cases changed
  · intro o o' value settled changed
    obtain ⟨-, same⟩ := Overlay.setBlend_lambda changed
    rw [Overlay.Settled, same]
    exact settled

/-- Forwarding gives every part of the overlay the value of its parameter. -/
theorem forward_serves (names : (r.track.overlay.parameters.entries.map Prod.fst).Nodup)
    (on : r.track.overlay.forwarding = true) :
    Ends forward r (fun _ r' ↦ r'.track.overlay.Serves) (fun _ _ ↦ True) := by
  have alike := forward_alike r
  unfold forward at alike ⊢
  simp only [ends_bind, ends_get, ends_ite, on, not_true, false_implies, true_implies,
    and_true] at alike ⊢
  refine ((alike.and (forwardAll_reads Overlay.reads_progress names)).and
    (forwardAll_reads Overlay.reads_blend names)).mono ?_ fun _ _ _ ↦ trivial
  rintro _ r' ⟨⟨alike, progress⟩, blend⟩
  refine ⟨fun {v g} there attached ↦ ?_, fun {v b} there laid ↦ ?_⟩
  · rw [alike.parameters] at there
    have read := progress v there
    rw [Overlay.conductanceProgress?, attached] at read
    obtain ⟨_, -, same⟩ := Option.map_eq_some_iff.1 read.symm
    exact same.symm
  · rw [alike.parameters] at there
    have read := blend v there
    rw [laid] at read
    obtain ⟨_, -, same⟩ := Option.map_eq_some_iff.1 read.symm
    exact same.symm

theorem computeResidual_mirrors (laid : r.Lays layer S B forwarding)
    (firm : ∀ a, S = some a → a.Steadfast layer n) (h : r.Mirrors P) :
    Ends computeResidual r (fun _ r' ↦ r'.Mirrors P) (fun _ r' ↦ r'.Mirrors P) := by
  have forwarded := (forward_settled (r := r.computing) h.settled).and (forward_alike r.computing)
  have invalid : ∀ {s : Store δ α n} {it : Iterate α n} {o : Overlay α}, o.Settled →
      it.flags.residual = .stale → (r.put s it o).Mirrors P :=
    fun settled stale ↦ .of_invalid settled (Bool.eq_false_iff.2
      (Iterate.not_isValid_of_stale (q := .residual) stale))
  refine .of_result (computeResidual_run r) ?_ ?_
  · intro ok r' run
    cases run with
    | known => exact h
    | unloaded _ run => exact invalid (forwarded.ok run).1 rfl
    | @loaded _ device overlay overlay' run load call good f augmented =>
      obtain ⟨settled, alike⟩ := forwarded.ok run
      obtain rfl := Overlay.augmentResidual_steadfast (laid.firm firm alike) augmented
      subst call
      refine ⟨settled, fun _ ↦ ?_, fun _ on ↦ ?_⟩
      · -- The load has left the residual of what the device layer was told.
        rw [P.residual_buffer _ _ _ _ good] at augmented
        show overlay'.augmentResidual r.track.iterate.x (P.residual
          (P.view (Device.loadResidual device r.track.x r.store.previous
            r.store.residual).device) r.track.iterate.x r.store.previous) = .ok (overlay', f)
        rw [P.residual_view]
        exact augmented
      · have on : overlay'.forwarding = true := on
        have served := (forward_serves (r := r.computing) laid.names
          (alike.forwarding.symm.trans on)).ok run
        exact served
  · intro e r' run
    cases run with
    | reentered => exact h
    | refused _ run => exact invalid (forwarded.error run).1 rfl
    | stuck _ run => exact invalid (forwarded.ok run).1 rfl

theorem computeJacobian_mirrors (laid : r.Lays layer S B forwarding)
    (firm : ∀ a, S = some a → a.Steadfast layer n) (h : r.Mirrors P) :
    Ends computeJacobian r (fun _ r' ↦ r'.Mirrors P) (fun _ r' ↦ r'.Mirrors P) := by
  have renewed : Ends computeResidual r.outdated (fun _ r' ↦ r'.Mirrors P)
      (fun _ r' ↦ r'.Mirrors P) :=
    computeResidual_mirrors laid.outdated firm (.of_invalid h.settled (Bool.eq_false_iff.2
      (Iterate.not_isValid_of_stale (q := .residual) rfl)))
  have refreshed : ∀ {r' : Rig δ α n}, Refreshed r r' → r'.Mirrors P :=
    fun base ↦ base.keeps h fun _ ↦ renewed
  -- A load of the Jacobian leaves what the device layer was told, the residual and its flag.
  have kept : ∀ {r' : Rig δ α n} {load : Load δ (Mat α n n)} {A : Mat α n n} {v : Validity},
      load = r'.store.jacobianLoad r'.track.x →
      let r'' := r'.put { r'.store.afterJacobian r'.track.iterate.id load with jacobian := A }
        { r'.track.iterate with
          flags := { residual := r'.track.iterate.flags.residual, jacobian := v } }
        r'.track.overlay
      r''.equations P = r'.equations P ∧
        (r''.isValid .residual = true → r'.isValid .residual = true) := by
    intro r' load A v call r''
    subst call
    refine ⟨?_, fun valid ↦ ?_⟩
    · show P.residual (P.view (Device.loadJacobian ..).device) _ _ = _
      rw [P.jacobian_view]
      rfl
    · rw [isValid_iff] at valid ⊢
      simpa [Flags.of, r''] using valid
  refine .of_result (computeJacobian_run r) ?_ ?_
  · intro ok r' run
    cases run with
    | known => exact h
    | unrefreshed _ _ run => exact renewed.ok run
    | unloaded _ base call =>
      obtain ⟨equations, valid⟩ := kept call
      exact (refreshed base).of_same rfl equations rfl rfl valid
    | @loaded _ r' base load call good overlay A augmented =>
      have mirrors := refreshed base
      obtain ⟨equations, valid⟩ := kept (A := A) (v := .valid) call
      subst call
      obtain ⟨settled, shows⟩ := Overlay.augmentJacobian_steadfast
        (laid.firm firm base.frames.overlay) mirrors.settled (base.holds laid.holds) good augmented
      refine ⟨settled, fun valid' ↦ ?_, fun valid' on ↦ ?_⟩
      · have shown := shows (mirrors.shows (valid valid'))
        rw [← equations] at shown
        exact shown
      · have same := (Overlay.augmentJacobian_alike augmented).forwarding
        exact Overlay.augmentJacobian_serves
          (mirrors.serves (valid valid') (same.symm.trans on)) augmented
  · intro e r' run
    cases run with
    | reentered => exact h
    | refused _ _ run => exact renewed.error run
    | stuck _ base call =>
      obtain ⟨equations, valid⟩ := kept call
      exact (refreshed base).of_same rfl equations rfl rfl valid

theorem computeNewton_mirrors (h : r.Mirrors P) (mayReuse : Bool) :
    Ends (computeNewton mayReuse) r (fun _ r' ↦ r'.Mirrors P) (fun _ r' ↦ r'.Mirrors P) := by
  have kept : ∀ {r' : Rig δ α n}, r.Redirects r' → r'.Mirrors P := fun redirects ↦
    h.of_same redirects.overlay (redirects.equations P) redirects.x redirects.residual
      fun valid ↦ redirects.valid.symm.trans valid
  exact (computeNewton_redirects r mayReuse).mono (fun _ _ ↦ kept) fun _ _ ↦ kept

/-- A Newton driver keeps the residual what it is said to be. -/
theorem keeps_mirrors (P : PureDevice δ α) (firm : ∀ a, S = some a → a.Steadfast layer n) :
    Keeps (fun r : Rig δ α n ↦ r.Lays layer S B forwarding ∧ r.Mirrors P) fun _ ↦ True where
  rest h := h.1.rest
  move h x := ⟨keeps_lays.move h.1 x, .of_invalid h.2.settled
    (Bool.eq_false_iff.2 (Iterate.not_isValid_of_stale (q := .residual) rfl))⟩
  residual h := ((keeps_lays.residual h.1).and (computeResidual_mirrors h.1 firm h.2)).mono
    (fun _ _ kept ↦ kept) fun _ _ kept ↦ ⟨trivial, kept.1.2, kept.2⟩
  jacobian h := ((keeps_lays.jacobian h.1).and (computeJacobian_mirrors h.1 firm h.2)).mono
    (fun _ _ kept ↦ kept) fun _ _ kept ↦ ⟨trivial, kept.1.2, kept.2⟩
  newton h valid mayReuse ready :=
    ((keeps_lays.newton h.1 valid mayReuse ready).and (computeNewton_mirrors h.2 mayReuse)).mono
      (fun _ _ kept ↦ kept) fun _ _ kept ↦ ⟨trivial, kept.1.2, kept.2⟩

end Rig

end OperatingPoint
