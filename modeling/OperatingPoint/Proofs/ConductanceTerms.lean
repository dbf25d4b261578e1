import OperatingPoint.Proofs.BenchCommands
import OperatingPoint.Proofs.Conductances
import OperatingPoint.Proofs.DeviceStates
import OperatingPoint.Proofs.Registered

/-!
# Conductances in residual and Jacobian

A conductance to reference belongs in two places, in the row of its unknown in the residual and on
the diagonal of the Jacobian.  Which conductance it is depends on whether the unknown has an element
attached to it, and that is found out where a Jacobian is loaded.  The residual that goes with the
Jacobian has been loaded before, with what was known then.

So what is valid for a track does not always agree.  The rest of what a conductance depends on is
the same in both places, whatever happens on a bench, and they agree at an unknown if and only if
the last Jacobian has found there what had been known before, or the conductance is not below the
one that ties unknowns without an element.

The invariant says where the stored residual and the stored Jacobian come from: from which answers
of the device layer, as changed by which overlay.
-/

set_option autoImplicit false

namespace OperatingPoint

open Step
open Gmin (rowIsEmpty)

variable {δ α : Type} [Scalar α] [Device δ α] {n : Nat} {layer : δ}

/-! ## Answers of the device layer -/

namespace Device

/-- The device layer answers with a residual, in some state that it comes to. -/
def GivesResidual (layer : δ) (x previous f : Vector α n) : Prop :=
  ∃ device : δ, Reaches layer device ∧ ∃ buffer : Vector α n,
    (loadResidual device x previous buffer).ok = true ∧
      (loadResidual device x previous buffer).buffer = f

/-- The device layer answers with a Jacobian, in some state that it comes to. -/
def GivesJacobian (layer : δ) (x previous : Vector α n) (A : Mat α n n) : Prop :=
  ∃ device : δ, Reaches layer device ∧
    (loadJacobian device x previous (Mat.zero α n n)).ok = true ∧
      (loadJacobian device x previous (Mat.zero α n n)).buffer = A

end Device

/-! ## What is attached -/

/-- What is known of unknowns without an element is nothing yet, or it is what a Jacobian of the
device layer has shown. -/
def Gmin.Learned (layer : δ) (n : Nat) (g : Gmin α) : Prop :=
  g.floating = IndexSet.ofList [] ∨ ∃ (x previous : Vector α n) (A : Mat α n n),
    Device.GivesJacobian layer x previous A ∧ g.floating = g.partition.members.filter (rowIsEmpty A)

/-- Conductances on unknowns that are there, with notes of loads that have been. -/
structure Augmentation.Conducts (layer : δ) (n loads : Nat) (a : Augmentation α) (g : Gmin α) :
    Prop where
  fits : a.Fits n
  learned : g.Learned layer n
  noted : ∀ load, g.shift.load = some load → load ≤ loads

namespace Overlay

variable {o o' o'' : Overlay α} {loads : Nat}

/-- If the strategy that is attached has conductances, then it has them as it may. -/
def Conducts (layer : δ) (n loads : Nat) (o : Overlay α) : Prop :=
  ∀ a g, o.strategy = some a → a.gmin? = some g → a.Conducts layer n loads g

namespace Conducts

theorem mono (h : o.Conducts layer n loads) {loads' : Nat} (more : loads ≤ loads') :
    o.Conducts layer n loads' := fun a g there conducts ↦
  ⟨(h a g there conducts).fits, (h a g there conducts).learned, fun load noted ↦
    Nat.le_trans ((h a g there conducts).noted load noted) more⟩

theorem of_strategy (h : o.Conducts layer n loads)
    (strategy : o'.strategy = o.strategy ∨ o'.strategy = none) : o'.Conducts layer n loads := by
  intro a g there
  rcases strategy with same | gone
  · exact h a g (same ▸ there)
  · rw [gone] at there
    cases there

theorem setProgress (h : o.Conducts layer n loads) {value : α}
    (told : o.setProgress value = .ok o') : o'.Conducts layer n loads := by
  unfold Overlay.setProgress at told
  split at told
  · rename_i a there
    obtain ⟨a', changed, same⟩ := bind_eq_ok.1 told
    cases same
    rintro _ g ⟨⟩ conducts
    rw [Augmentation.setProgress_gmin? changed] at conducts
    obtain ⟨g₀, conducts₀, rfl⟩ := Option.map_eq_some_iff.1 conducts
    have old := h a g₀ there conducts₀
    exact ⟨(Augmentation.fits_congr (Augmentation.setProgress_frame changed)).2 old.fits,
      old.learned, old.noted⟩
  · cases told

theorem setBlend (h : o.Conducts layer n loads) {value : α} (told : o.setBlend value = .ok o') :
    o'.Conducts layer n loads := by
  unfold Overlay.setBlend at told
  split at told <;> cases told
  exact h.of_strategy (.inl rfl)

theorem augmentResidual (h : o.Conducts layer n loads) {x f f' : Vector α n}
    (run : o.augmentResidual x f = .ok (o', f')) : o'.Conducts layer n loads := by
  cases there : o.strategy with
  | none =>
    rw [augmentResidual_none there] at run
    cases run
    exact h
  | some a =>
    rw [augmentResidual_some there] at run
    obtain ⟨⟨a', _⟩, changed, same⟩ := bind_eq_ok.1 run
    cases same
    rintro _ g ⟨⟩ conducts
    rw [(Augmentation.augmentResidual_gmin? changed).1] at conducts
    have old := h a g there conducts
    exact ⟨(Augmentation.fits_congr (Augmentation.augmentResidual_frame changed)).2 old.fits,
      old.learned, old.noted⟩

/-- The next Jacobian is one that has not been noted before, and it shows which unknowns are without
an element. -/
theorem augmentJacobian (h : o.Conducts layer n loads) {x previous : Vector α n} {A A' : Mat α n n}
    (given : Device.GivesJacobian layer x previous A)
    (run : o.augmentJacobian (loads + 1) A = .ok (o', A')) : o'.Conducts layer n (loads + 1) := by
  cases there : o.strategy with
  | none =>
    rw [augmentJacobian_none there] at run
    cases run
    exact h.mono (Nat.le_succ _)
  | some a =>
    rw [augmentJacobian_some there] at run
    obtain ⟨⟨a', _⟩, changed, same⟩ := bind_eq_ok.1 run
    cases same
    rintro _ g ⟨⟩ conducts
    rw [(Augmentation.augmentJacobian_gmin? changed).1] at conducts
    obtain ⟨g₀, conducts₀, rfl⟩ := Option.map_eq_some_iff.1 conducts
    have old := h a g₀ there conducts₀
    refine ⟨(Augmentation.fits_congr (Augmentation.augmentJacobian_frame changed)).2 old.fits,
      .inr ⟨x, previous, A, given, Gmin.seeing_floating ?_⟩, ?_⟩
    · refine bne_iff_ne.2 fun noted ↦ ?_
      exact absurd (old.noted _ noted) (Nat.not_succ_le_self _)
    · rintro load ⟨⟩
      exact Nat.le_refl _

end Conducts

/-- Two overlays that differ in their parameters and in what loads leave. -/
structure Kin (o o' : Overlay α) : Prop where
  strategy : o'.strategy.map Augmentation.unused = o.strategy.map Augmentation.unused
  blend : o'.blend = o.blend

theorem Kin.refl (o : Overlay α) : o.Kin o := ⟨rfl, rfl⟩

theorem Kin.trans (h : o.Kin o') (h' : o'.Kin o'') : o.Kin o'' :=
  ⟨h'.strategy.trans h.strategy, h'.blend.trans h.blend⟩

theorem augmentResidual_kin {x f f' : Vector α n} (run : o.augmentResidual x f = .ok (o', f')) :
    o.Kin o' := by
  cases there : o.strategy with
  | none =>
    rw [augmentResidual_none there] at run
    cases run
    exact .refl o
  | some a =>
    rw [augmentResidual_some there] at run
    obtain ⟨⟨a', _⟩, changed, same⟩ := bind_eq_ok.1 run
    cases same
    refine ⟨?_, rfl⟩
    rw [there]
    exact congrArg some (Augmentation.augmentResidual_gmin? changed).2

theorem augmentJacobian_kin {A A' : Mat α n n} {load : Nat}
    (run : o.augmentJacobian load A = .ok (o', A')) : o.Kin o' := by
  cases there : o.strategy with
  | none =>
    rw [augmentJacobian_none there] at run
    cases run
    exact .refl o
  | some a =>
    rw [augmentJacobian_some there] at run
    obtain ⟨⟨a', _⟩, changed, same⟩ := bind_eq_ok.1 run
    cases same
    refine ⟨?_, rfl⟩
    rw [there]
    exact congrArg some (Augmentation.augmentJacobian_gmin? changed).2

end Overlay

/-! ## Where the stored quantities come from -/

variable [DirectSolver α]

namespace Rig

variable {r r' r'' : Rig δ α n} {o : Overlay α} {f : Vector α n} {A : Mat α n n} {before : Nat}

/-- The stored residual is an answer of the device layer at the point of the track, changed by an
overlay that was like the one of the track. -/
structure ResidualStems (layer : δ) (r : Rig δ α n) (o : Overlay α) (f : Vector α n) : Prop where
  given : Device.GivesResidual layer r.track.x r.store.previous f
  changed : ∃ o', o.augmentResidual r.track.x f = .ok (o', r.store.residual)
  conducts : ∃ loads, o.Conducts layer n loads
  kin : o.Kin r.track.overlay

/-- The stored Jacobian is an answer of the device layer at the point of the track, changed by an
overlay that the change has made that of the track. -/
structure JacobianStems (layer : δ) (r : Rig δ α n) (o : Overlay α) (before : Nat)
    (A : Mat α n n) : Prop where
  given : Device.GivesJacobian layer r.track.x r.store.previous A
  changed : ∃ o', o.augmentJacobian (before + 1) A = .ok (o', r.store.jacobian) ∧
    o'.strategy = r.track.overlay.strategy ∧ o'.blend = r.track.overlay.blend
  conducts : o.Conducts layer n before

/-- A rig between two computations, whose quantities come from where they should. -/
structure Conducts (layer : δ) (r : Rig δ α n) : Prop where
  rest : r.AtRest
  holds : r.Holds layer
  overlay : r.track.overlay.Conducts layer n r.store.jacobianLoads
  residual : r.isValid .residual = true → ∃ o f, r.ResidualStems layer o f
  jacobian : r.isValid .residual = true → r.isValid .jacobian = true →
    ∃ o before A, r.JacobianStems layer o before A

/-- What a track does: its quantities still come from where they should, and the others are left
alone. -/
structure Conveys (layer : δ) (r r' : Rig δ α n) : Prop where
  conducts : r'.Conducts layer
  id : r'.track.iterate.id = r.track.iterate.id
  spares : r.store.Spares r.track.iterate.id r'.store
  loads : r.store.jacobianLoads ≤ r'.store.jacobianLoads

theorem Conveys.refl (h : r.Conducts layer) : r.Conveys layer r :=
  ⟨h, rfl, .refl _ _, Nat.le_refl _⟩

theorem Conveys.trans (h : r.Conveys layer r') (h' : r'.Conveys layer r'') :
    r.Conveys layer r'' where
  conducts := h'.conducts
  id := h'.id.trans h.id
  spares := h.spares.trans (h.id ▸ h'.spares)
  loads := Nat.le_trans h.loads h'.loads

/-- A residual that was there before, under an overlay like the one before. -/
theorem ResidualStems.of_same (h : r.ResidualStems layer o f) (x : r'.track.x = r.track.x)
    (previous : r'.store.previous = r.store.previous)
    (residual : r'.store.residual = r.store.residual)
    (kin : r.track.overlay.Kin r'.track.overlay) : r'.ResidualStems layer o f where
  given := x ▸ previous ▸ h.given
  changed := by
    rw [x, residual]
    exact h.changed
  conducts := h.conducts
  kin := h.kin.trans kin

/-- A Jacobian that was there before. -/
theorem JacobianStems.of_same (h : r.JacobianStems layer o before A) (x : r'.track.x = r.track.x)
    (previous : r'.store.previous = r.store.previous)
    (jacobian : r'.store.jacobian = r.store.jacobian)
    (strategy : r'.track.overlay.strategy = r.track.overlay.strategy)
    (blend : r'.track.overlay.blend = r.track.overlay.blend) :
    r'.JacobianStems layer o before A where
  given := x ▸ previous ▸ h.given
  changed := by
    rw [jacobian, strategy, blend]
    exact h.changed
  conducts := h.conducts

/-- What is valid at another rig has been valid before and is the same, as far as that goes. -/
theorem Conducts.still (h : r.Conducts layer) (rest : r'.AtRest) (holds : r'.Holds layer)
    (overlay : r'.track.overlay.Conducts layer n r'.store.jacobianLoads)
    (previous : r'.store.previous = r.store.previous)
    (residual : r'.isValid .residual = true → r.isValid .residual = true ∧
      r'.track.x = r.track.x ∧ r'.store.residual = r.store.residual ∧
        r.track.overlay.Kin r'.track.overlay)
    (jacobian : r'.isValid .jacobian = true → r.isValid .jacobian = true ∧
      r'.store.jacobian = r.store.jacobian ∧
        r'.track.overlay.strategy = r.track.overlay.strategy ∧
          r'.track.overlay.blend = r.track.overlay.blend) : r'.Conducts layer where
  rest := rest
  holds := holds
  overlay := overlay
  residual valid := by
    obtain ⟨valid, x, same, kin⟩ := residual valid
    obtain ⟨o, f, stems⟩ := h.residual valid
    exact ⟨o, f, stems.of_same x previous same kin⟩
  jacobian valid valid' := by
    obtain ⟨valid, x, -⟩ := residual valid
    obtain ⟨valid', same, strategy, blend⟩ := jacobian valid'
    obtain ⟨o, before, A, stems⟩ := h.jacobian valid valid'
    exact ⟨o, before, A, stems.of_same x previous same strategy blend⟩

/-- Where there is no residual, nothing has to come from anywhere. -/
theorem Conducts.of_stale (rest : r'.AtRest) (holds : r'.Holds layer)
    (overlay : r'.track.overlay.Conducts layer n r'.store.jacobianLoads)
    (stale : r'.track.iterate.flags.residual ≠ .valid) : r'.Conducts layer :=
  ⟨rest, holds, overlay, fun valid ↦ absurd (isValid_iff.1 valid).1 stale,
    fun valid ↦ absurd (isValid_iff.1 valid).1 stale⟩

/-! ## The conductances in what is stored -/

/-- Conductances in a residual and in a Jacobian: those of the strategy now and those of it before,
and the answers of the device layer that they have been added to. -/
structure Terms (layer : δ) (r : Rig δ α n) (a : Augmentation α) (g before : Gmin α)
    (f f' : Vector α n) (A A' : Mat α n n) : Prop where
  residual_given : Device.GivesResidual layer r.track.x r.store.previous f
  jacobian_given : Device.GivesJacobian layer r.track.x r.store.previous A
  residual : r.store.residual = r.track.overlay.blendResidual r.track.x f'
  jacobian : r.store.jacobian = r.track.overlay.blendJacobian A'
  /-- They differ in nothing but in what loads leave. -/
  unused : before.unused = g.unused
  learned : before.Learned layer n
  floating : g.floating = g.partition.members.filter (rowIsEmpty A)
  row : ∀ i : Fin n, i.val ∈ g.partition.indices → i.val ∉ a.pinnedRows →
    f'.get i = f.get i + before.tie i * r.track.x.get i
  diagonal : ∀ i : Fin n, i.val ∈ g.partition.indices → i.val ∉ a.pinnedRows →
    A' i i = A i i + g.tie i

theorem ResidualStems.conductances (h : r.ResidualStems layer o f) {a : Augmentation α}
    {g : Gmin α} (there : r.track.overlay.strategy = some a) (conducts : a.gmin? = some g) :
    ∃ (before : Gmin α) (f' : Vector α n),
      r.store.residual = r.track.overlay.blendResidual r.track.x f' ∧ before.unused = g.unused ∧
        before.Learned layer n ∧ ∀ i : Fin n, i.val ∈ g.partition.indices → i.val ∉ a.pinnedRows →
          f'.get i = f.get i + before.tie i * r.track.x.get i := by
  obtain ⟨_, run⟩ := h.changed
  obtain ⟨_, old⟩ := h.conducts
  have kin := h.kin.strategy
  rw [there] at kin
  obtain ⟨a₀, there₀, like⟩ := Option.map_eq_some_iff.1 kin.symm
  rw [Overlay.augmentResidual_some there₀] at run
  obtain ⟨⟨a', f'⟩, changed, same⟩ := bind_eq_ok.1 run
  obtain ⟨-, residual⟩ := Prod.mk.inj (Except.ok.inj same)
  have likewise := Augmentation.gmin?_unused a₀
  rw [like, Augmentation.gmin?_unused, conducts] at likewise
  obtain ⟨before, conducts₀, unused⟩ := Option.map_eq_some_iff.1 likewise.symm
  have pinned : a₀.pinnedRows = a.pinnedRows := by
    rw [← Augmentation.pinnedRows_unused, like, Augmentation.pinnedRows_unused]
  refine ⟨before, f', ?_, unused, (old a₀ before there₀ conducts₀).learned, fun i member free ↦ ?_⟩
  · rw [← residual, Overlay.blendResidual, Overlay.blendResidual, h.kin.blend]
  · refine Augmentation.augmentResidual_row conducts₀ (old a₀ before there₀ conducts₀).fits changed
      ?_ (pinned ▸ free)
    rwa [(Gmin.unused_inj unused).1]

theorem JacobianStems.conductances (h : r.JacobianStems layer o before A) {a : Augmentation α}
    {g : Gmin α} (there : r.track.overlay.strategy = some a) (conducts : a.gmin? = some g) :
    ∃ A' : Mat α n n, r.store.jacobian = r.track.overlay.blendJacobian A' ∧
      g.floating = g.partition.members.filter (rowIsEmpty A) ∧
        ∀ i : Fin n, i.val ∈ g.partition.indices → i.val ∉ a.pinnedRows →
          A' i i = A i i + g.tie i := by
  obtain ⟨o', run, strategy, blend⟩ := h.changed
  rw [there] at strategy
  cases there₀ : o.strategy with
  | none =>
    rw [Overlay.augmentJacobian_none there₀] at run
    rw [(Prod.mk.inj (Except.ok.inj run)).1, strategy] at there₀
    cases there₀
  | some a₀ =>
    rw [Overlay.augmentJacobian_some there₀] at run
    obtain ⟨⟨a', A'⟩, changed, same⟩ := bind_eq_ok.1 run
    obtain ⟨rfl, jacobian⟩ := Prod.mk.inj (Except.ok.inj same)
    cases strategy
    have seen := (Augmentation.augmentJacobian_gmin? changed).1
    rw [conducts] at seen
    obtain ⟨g₀, conducts₀, rfl⟩ := Option.map_eq_some_iff.1 seen.symm
    have old := h.conducts a₀ g₀ there₀ conducts₀
    have fresh : g₀.shift.isFresh (before + 1) = true := by
      refine bne_iff_ne.2 fun noted ↦ ?_
      exact absurd (old.noted _ noted) (Nat.not_succ_le_self _)
    have pinned : a₀.pinnedRows = a'.pinnedRows := by
      rw [← Augmentation.pinnedRows_unused, ← (Augmentation.augmentJacobian_gmin? changed).2,
        Augmentation.pinnedRows_unused]
    refine ⟨A', ?_, Gmin.seeing_floating fresh, fun i member free ↦ ?_⟩
    · rw [← jacobian, Overlay.blendJacobian, Overlay.blendJacobian, ← blend]
    · exact Augmentation.augmentJacobian_diagonal conducts₀ old.fits fresh changed member
        (pinned ▸ free)

/-- Where residual and Jacobian are both there, the conductances have been added to both. -/
theorem Conducts.terms (h : r.Conducts layer) (residual : r.isValid .residual = true)
    (jacobian : r.isValid .jacobian = true) {a : Augmentation α} {g : Gmin α}
    (there : r.track.overlay.strategy = some a) (conducts : a.gmin? = some g) :
    ∃ before f f' A A', r.Terms layer a g before f f' A A' := by
  obtain ⟨_, f, stems⟩ := h.residual residual
  obtain ⟨_, _, A, stems'⟩ := h.jacobian residual jacobian
  obtain ⟨before, f', stored, unused, learned, row⟩ := stems.conductances there conducts
  obtain ⟨A', stored', floating, diagonal⟩ := stems'.conductances there conducts
  exact ⟨before, f, f', A, A', stems.given, stems'.given, stored, stored', unused, learned,
    floating, row, diagonal⟩

namespace Terms

variable {a : Augmentation α} {g before : Gmin α} {f' : Vector α n} {A' : Mat α n n}

theorem floats (h : r.Terms layer a g before f f' A A') {i : Nat}
    (member : i ∈ g.partition.indices) : g.floating.contains i = rowIsEmpty A i := by
  refine Bool.eq_iff_iff.2 ?_
  rw [h.floating, IndexSet.contains_iff, IndexSet.mem_filter]
  exact and_iff_right member

/-- The two conductances at an unknown agree if and only if the Jacobian has shown what had been
known before, or it makes no difference. -/
theorem agrees (h : r.Terms layer a g before f f' A A') {i : Nat}
    (member : i ∈ g.partition.indices) : before.tie i = g.tie i ↔
      before.floating.contains i = rowIsEmpty A i ∨
        Scalar.max g.conductance (Scalar.exp10 g.stop) = g.conductance := by
  obtain ⟨-, progress, stop, floor⟩ := Gmin.unused_inj h.unused
  have conductance : before.conductance = g.conductance := by
    rw [Gmin.conductance, Gmin.conductance, progress, stop, floor]
  rw [← h.floats member, Gmin.tie, Gmin.tie, conductance, stop]
  cases before.floating.contains i <;> cases g.floating.contains i <;> simp [eq_comm]

/-- They agree where the device layer never answers with an empty row. -/
theorem agrees_of_entries (h : r.Terms layer a g before f f' A A') {i : Nat}
    (member : i ∈ g.partition.indices) (entries : ∀ (x previous : Vector α n) (B : Mat α n n),
      Device.GivesJacobian layer x previous B → rowIsEmpty B i = false) :
    before.tie i = g.tie i := by
  refine (h.agrees member).2 (.inl ?_)
  rw [entries _ _ _ h.jacobian_given, Bool.eq_false_iff]
  intro floats
  rw [IndexSet.contains_iff] at floats
  rcases h.learned with nothing | ⟨x, previous, B, given, shown⟩
  · rw [nothing] at floats
    cases floats
  · rw [shown, IndexSet.mem_filter] at floats
    rw [entries x previous B given] at floats
    cases floats.2

end Terms

/-! ## Changes of a track -/

/-- A change that leaves nothing known. -/
theorem Conducts.forget (h : r.Conducts layer) {t : Track α n}
    (id : t.iterate.id = r.track.iterate.id) (flags : t.iterate.flags = {})
    (overlay : t.overlay.Conducts layer n r.store.jacobianLoads) :
    r.Conveys layer { r with track := t } where
  conducts := .of_stale ⟨h.rest.paired, .of_fresh flags⟩ h.holds overlay (by
    show t.iterate.flags.residual ≠ .valid
    rw [flags]
    nofun)
  id := id
  spares := .refl _ _
  loads := Nat.le_refl _

/-- A change of the equations that attaches nothing. -/
theorem Conducts.adjust (h : r.Conducts layer) {t : Track α n} (adjusts : r.track.Adjusts t) :
    r.Conveys layer { r with track := t } := by
  rcases adjusts.stale with rfl | stale
  · exact .refl h
  · exact h.forget adjusts.id stale (h.overlay.of_strategy adjusts.strategy)

/-- A strategy is attached as it was made. -/
theorem Conducts.attach (h : r.Conducts layer) {a : Augmentation α}
    (unused : ∀ g, a.gmin? = some g → g.unused = g) {t : Track α n}
    (attached : r.track.attach a = .ok t) : r.Conveys layer { r with track := t } := by
  unfold Track.attach at attached
  split at attached
  · cases attached
  · obtain ⟨_, accepted, same⟩ := bind_eq_ok.1 attached
    cases same
    refine h.forget rfl rfl ?_
    rintro _ g ⟨⟩ conducts
    have new := unused g conducts
    refine ⟨Augmentation.fits_of_validate accepted ?_, .inl ?_, ?_⟩
    · rintro p rfl
      cases conducts
    · rw [← new]
      rfl
    · intro load noted
      rw [← new] at noted
      cases noted

/-- A change of the device layer other than a load. -/
theorem Conducts.setDevice (h : r.Conducts layer) {device : δ}
    (reached : Device.Reaches layer device) :
    r.Conveys layer { r with store := { r.store with device := device } } where
  conducts := h.still ⟨h.rest.paired, h.rest.rests⟩ reached h.overlay rfl
    (fun valid ↦ ⟨valid, rfl, rfl, .refl _⟩) fun valid ↦ ⟨valid, rfl, rfl, rfl⟩
  id := rfl
  spares := .of_written [] true rfl rfl rfl rfl fun q ↦ by
    cases q <;> first | exact .inr rfl | exact .inr trivial
  loads := Nat.le_refl _

/-- A change of the store other than a load. -/
theorem Conducts.setStore (h : r.Conducts layer) {s : Store δ α n} {flags : Flags}
    (spares : r.store.Spares r.track.iterate.id s) (device : s.device = r.store.device)
    (loads : s.jacobianLoads = r.store.jacobianLoads)
    (residual : s.residual = r.store.residual) (jacobian : s.jacobian = r.store.jacobian)
    (owner : ∀ q, q ≠ .newton → q ≠ .gradient → s.owners.of q = r.store.owners.of q)
    (up : flags.residual = r.track.iterate.flags.residual)
    (up' : flags.jacobian = r.track.iterate.flags.jacobian) :
    r.Conveys layer (r.put s { r.track.iterate with flags := flags } r.track.overlay) where
  conducts := by
    have owner_residual := owner .residual nofun nofun
    refine h.still ⟨?_, up ▸ h.rest.rests.residual, up' ▸ h.rest.rests.jacobian⟩ ?_
      (loads ▸ h.overlay) spares.previous (fun valid ↦ ?_) fun valid ↦ ?_
    · exact (owner .auxState nofun nofun).trans (h.rest.paired.trans owner_residual.symm)
    · show Device.Reaches layer s.device
      rw [device]
      exact h.holds
    · obtain ⟨flag, owned⟩ := isValid_iff.1 valid
      exact ⟨isValid_iff.2 ⟨up.symm.trans flag, owner_residual.symm.trans owned⟩, rfl, residual,
        .refl _⟩
    · obtain ⟨flag, owned⟩ := isValid_iff.1 valid
      exact ⟨isValid_iff.2 ⟨up'.symm.trans flag, (owner .jacobian nofun nofun).symm.trans owned⟩,
        jacobian, rfl, rfl⟩
  id := rfl
  spares := spares
  loads := Nat.le_of_eq loads.symm

/-! ## Computations -/

theorem computeNewton_conveys (h : r.Conducts layer) (mayReuse : Bool) :
    Ends (computeNewton mayReuse) r (fun _ r' ↦ r.Conveys layer r')
      (fun _ r' ↦ r.Conveys layer r') := by
  refine .of_result (computeNewton_run r mayReuse) ?_ ?_
  · intro ok r' run
    cases run with
    | known => exact .refl h
    | solved _ _ _ run =>
      refine h.setStore (.afterSolve _ _ ((Workspace.ends_solve_options ..).ok run) _ _) rfl rfl rfl
        rfl (fun q other _ ↦ ?_) rfl rfl
      simp [other]
    | refused _ _ _ run =>
      refine h.setStore (.afterRefusal _ _ ((Workspace.ends_solve_options ..).error run)) rfl rfl
        rfl rfl (fun q other _ ↦ ?_) rfl rfl
      simp [other]
  · intro e r' run
    cases run with
    | noResidual => exact .refl h
    | noJacobian => exact .refl h
    | stopped _ _ _ _ run =>
      exact h.setStore (.withWorkspace _ _ ((Workspace.ends_solve_options ..).error run)) rfl rfl
        rfl rfl (fun _ _ _ ↦ rfl) rfl rfl

theorem computeGradient_conveys (h : r.Conducts layer) :
    Ends computeGradient r (fun _ r' ↦ r.Conveys layer r') (fun _ r' ↦ r.Conveys layer r') := by
  refine .of_result (computeGradient_run r) ?_ ?_
  · intro _ r' run
    cases run with
    | known => exact .refl h
    | computed =>
      refine h.setStore (.withGradient _ _ _) rfl rfl rfl rfl (fun q _ other ↦ ?_) rfl rfl
      simp [other]
  · intro e r' run
    cases run with
    | noJacobian => exact .refl h
    | noResidual => exact .refl h

theorem computeResidual_conveys (h : r.Conducts layer) :
    Ends computeResidual r (fun _ r' ↦ r.Conveys layer r') (fun _ r' ↦ r.Conveys layer r') := by
  have told := (preserves_forward Device.lasts_reaches.parameter r.computing h.holds).and
    (forward_overlay (r := r.computing) (K := Overlay.Conducts layer n r.store.jacobianLoads)
      (fun h told ↦ h.setProgress told) (fun h told ↦ h.setBlend told) h.overlay)
  have rests : (withoutResidual r.track.iterate).Rests := ⟨nofun, h.rest.rests.jacobian⟩
  refine .of_result (computeResidual_run r) ?_ ?_
  · intro ok r' run
    cases run with
    | known => exact .refl h
    | unloaded _ forwarded call failed =>
      obtain ⟨reached, overlay⟩ := told.ok forwarded
      subst call
      exact ⟨.of_stale ⟨.afterResidual _, nofun, h.rest.rests.jacobian⟩ (.residual reached _ _ _)
        overlay nofun, rfl, .afterResidual _ _ _ _, Nat.le_refl _⟩
    | @loaded _ device overlay overlay' forwarded load call good f augmented =>
      obtain ⟨reached, overlay⟩ := told.ok forwarded
      subst call
      refine ⟨⟨⟨.afterResidual _, nofun, nofun⟩, .residual reached _ _ _,
        overlay.augmentResidual augmented, fun _ ↦ ?_, fun _ valid ↦ ?_⟩, rfl,
        .afterResidual _ _ _ _, Nat.le_refl _⟩
      · exact ⟨_, _, ⟨device, reached, _, good, rfl⟩, ⟨_, augmented⟩, ⟨_, overlay⟩,
          Overlay.augmentResidual_kin augmented⟩
      · exact absurd valid (Iterate.not_isValid_of_stale (q := .jacobian) rfl)
  · intro e r' run
    cases run with
    | reentered => exact .refl h
    | refused _ forwarded =>
      obtain ⟨reached, overlay⟩ := told.error forwarded
      exact ⟨.of_stale ⟨h.rest.paired, rests⟩ reached overlay nofun, rfl,
        (h.setDevice reached).spares, Nat.le_refl _⟩
    | stuck _ forwarded call good augmented =>
      obtain ⟨reached, overlay⟩ := told.ok forwarded
      subst call
      exact ⟨.of_stale ⟨.afterResidual _, rests⟩ (.residual reached _ _ _) overlay nofun, rfl,
        .afterResidual _ _ _ _, Nat.le_refl _⟩

theorem Conducts.outdated (h : r.Conducts layer) : r.Conveys layer r.outdated :=
  ⟨.of_stale h.rest.outdated h.holds h.overlay nofun, rfl, .refl _ _, Nat.le_refl _⟩

theorem computeJacobian_conveys (h : r.Conducts layer) :
    Ends computeJacobian r (fun _ r' ↦ r.Conveys layer r') (fun _ r' ↦ r.Conveys layer r') := by
  have outdated : Ends computeResidual r.outdated (fun _ r' ↦ r.Conveys layer r')
      (fun _ r' ↦ r.Conveys layer r') :=
    (computeResidual_conveys h.outdated.conducts).mono (fun _ _ conveys ↦ h.outdated.trans conveys)
      fun _ _ conveys ↦ h.outdated.trans conveys
  have refreshed : ∀ {r' : Rig δ α n}, Refreshed r r' → r.Conveys layer r' :=
    fun base ↦ base.keeps (.refl h) fun _ ↦ outdated
  -- A Jacobian that does not come to be takes nothing away but the Jacobian.
  have failed : ∀ {r' : Rig δ α n}, Refreshed r r' → r.Conveys layer
      (r'.put (r'.store.afterJacobian r'.track.iterate.id (r'.store.jacobianLoad r'.track.x))
        { r'.track.iterate with flags := { residual := r'.track.iterate.flags.residual } }
        r'.track.overlay) := by
    intro r' base
    have conveys := refreshed base
    have old := conveys.conducts
    refine conveys.trans ⟨old.still ⟨old.rest.paired.afterJacobian _, old.rest.rests.residual,
      nofun⟩ (.jacobian old.holds _ _ _) (old.overlay.mono (Nat.le_succ _)) rfl (fun valid ↦ ?_)
      fun valid ↦ ?_, rfl, .afterJacobian _ _ _ _, Nat.le_succ _⟩
    · obtain ⟨flag, owned⟩ := isValid_iff.1 valid
      exact ⟨isValid_iff.2 ⟨flag, by simpa using owned⟩, rfl, rfl, .refl _⟩
    · exact absurd valid (Iterate.not_isValid_of_stale (q := .jacobian) rfl)
  refine .of_result (computeJacobian_run r) ?_ ?_
  · intro ok r' run
    cases run with
    | known => exact .refl h
    | unrefreshed _ _ run => exact outdated.ok run
    | unloaded _ base call =>
      subst call
      exact failed base
    | @loaded _ r' base load call good overlay A augmented =>
      have conveys := refreshed base
      have old := conveys.conducts
      have kin := Overlay.augmentJacobian_kin augmented
      subst call
      have given : Device.GivesJacobian layer r'.track.x r'.store.previous
          (r'.store.jacobianLoad r'.track.x).buffer := ⟨_, old.holds, good, rfl⟩
      refine conveys.trans ⟨⟨⟨old.rest.paired.afterJacobian _, old.rest.rests.residual, nofun⟩,
        .jacobian old.holds _ _ _, old.overlay.augmentJacobian given augmented, fun _ ↦ ?_,
        fun _ _ ↦ ?_⟩, rfl, .afterJacobian _ _ _ _, Nat.le_succ _⟩
      · obtain ⟨o, f, stems⟩ := old.residual base.spec.1
        exact ⟨o, f, stems.of_same rfl rfl rfl kin⟩
      · exact ⟨_, _, _, given, ⟨_, augmented, rfl, rfl⟩, old.overlay⟩
  · intro e r' run
    cases run with
    | reentered => exact .refl h
    | refused _ _ run => exact outdated.error run
    | stuck _ base call =>
      subst call
      exact failed base

/-- What a solve does to a track, or a command that attaches nothing. -/
theorem keepsSteps_conveys (r : Rig δ α n) :
    KeepsSteps (fun r' ↦ r.Conveys layer r') fun _ ↦ True where
  rest h := h.conducts.rest
  move h _ := h.trans (h.conducts.forget rfl rfl h.conducts.overlay)
  residual h := (computeResidual_conveys h.conducts).mono (fun _ _ conveys ↦ h.trans conveys)
    fun _ _ conveys ↦ ⟨trivial, h.trans conveys⟩
  jacobian h := (computeJacobian_conveys h.conducts).mono (fun _ _ conveys ↦ h.trans conveys)
    fun _ _ conveys ↦ ⟨trivial, h.trans conveys⟩
  newton h _ mayReuse _ := (computeNewton_conveys h.conducts mayReuse).mono
    (fun _ _ conveys ↦ h.trans conveys) fun _ _ conveys ↦ ⟨trivial, h.trans conveys⟩
  parameter h name value := h.trans (h.conducts.adjust (Track.setParameter_adjusts _ name value))
  accept {r'} h := by
    have given := h.trans (h.conducts.setDevice (.accept h.conducts.holds r'.track.x.toArray))
    refine given.trans ⟨given.conducts.still ⟨given.conducts.rest.paired,
      given.conducts.rest.rests⟩ given.conducts.holds given.conducts.overlay rfl
      (fun valid ↦ ⟨valid, rfl, rfl, .refl _⟩) fun valid ↦ ⟨valid, rfl, rfl, rfl⟩, rfl, .refl _ _,
      Nat.le_refl _⟩
  abandon h := h.trans (h.conducts.setDevice (.abandon h.conducts.holds))

/-- A step in pseudo-time is not one of conductances, and the residual does not depend on it. -/
theorem Conducts.pseudo (h : r.Conducts layer) {p p' : PseudoTime α}
    (there : r.track.pseudoTime? = .ok p)
    (frame : (Augmentation.pseudoTransient p').frame = (Augmentation.pseudoTransient p).frame) :
    r.Conveys layer { r with track := r.track.putPseudoTime p' } where
  conducts := by
    refine h.still ⟨h.rest.paired, Track.putPseudoTime_rests h.rest.rests _⟩ h.holds ?_ rfl
      (fun valid ↦ ⟨isValid_iff.2 (isValid_iff.1 valid), rfl, rfl, ?_, rfl⟩)
      fun valid ↦ absurd valid (Iterate.not_isValid_of_stale (q := .jacobian) rfl)
    · rintro _ g ⟨⟩ conducts
      cases conducts
    · rw [Track.strategy_of_pseudoTime? there]
      exact congrArg some frame
  id := rfl
  spares := .refl _ _
  loads := Nat.le_refl _

theorem keepsUnattached_conveys (r : Rig δ α n) :
    KeepsUnattached fun r' ↦ r.Conveys layer r' where
  toKeeps := (keepsSteps_conveys r).toKeeps
  pseudo h _ _ there frame := h.trans (h.conducts.pseudo there frame)
  adjust h _ adjusts := h.trans (h.conducts.adjust adjusts)
  derivatives h := h.trans ⟨h.conducts.still ⟨h.conducts.rest.paired,
    h.conducts.rest.rests.residual, nofun⟩ h.conducts.holds h.conducts.overlay rfl
    (fun valid ↦ ⟨isValid_iff.2 (isValid_iff.1 valid), rfl, rfl, .refl _⟩)
    fun valid ↦ absurd valid (Iterate.not_isValid_of_stale (q := .jacobian) rfl), rfl, .refl _ _,
    Nat.le_refl _⟩
  gradient _ h := (computeGradient_conveys h.conducts).mono (fun _ _ conveys ↦ h.trans conveys)
    fun _ _ conveys ↦ h.trans conveys
  give h name value := h.trans (h.conducts.setDevice (.parameter h.conducts.holds name value))
  abandon h := h.trans (h.conducts.setDevice (.abandon h.conducts.holds))

end Rig

/-! ## All tracks of a bench -/

namespace Bench

/-- A bench whose tracks have quantities that come from where they should. -/
structure Conducts (layer : δ) (b : Bench δ α n) : Prop where
  registered : b.Registered
  paired : b.store.Paired
  holds : Device.Reaches layer b.store.device
  track : ∀ k t, b.Live k t → Rig.Conducts layer ⟨b.store, t⟩

namespace Conducts

variable {b : Bench δ α n} {k : Nat} {t : Track α n}

/-- A track that is left alone goes on as it was. -/
theorem spared (h : b.Conducts layer) (live : b.Live k t) {s : Store δ α n} {id : OwnerId}
    (paired : s.Paired) (holds : Device.Reaches layer s.device) (spares : b.store.Spares id s)
    (loads : b.store.jacobianLoads ≤ s.jacobianLoads) (other : t.iterate.id ≠ id) :
    Rig.Conducts layer ⟨s, t⟩ := by
  have old := h.track k t live
  refine old.still ⟨paired, old.rest.rests⟩ holds (old.overlay.mono loads) spares.previous
    (fun valid ↦ ?_) fun valid ↦ ?_
  · obtain ⟨flag, owned⟩ := Rig.isValid_iff.1 valid
    obtain ⟨owned, same⟩ := spares.others .residual _ other owned
    exact ⟨Rig.isValid_iff.2 ⟨flag, owned⟩, rfl, same, .refl _⟩
  · obtain ⟨flag, owned⟩ := Rig.isValid_iff.1 valid
    obtain ⟨owned, same⟩ := spares.others .jacobian _ other owned
    exact ⟨Rig.isValid_iff.2 ⟨flag, owned⟩, same, rfl, rfl⟩

/-- A track does something. -/
theorem withEngine (h : b.Conducts layer) (live : b.Live k t) {e : Engine δ α n}
    (conveys : Rig.Conveys layer ⟨b.store, t⟩ e.rig) : (b.withEngine k e).Conducts layer where
  registered := h.registered.withEngine live conveys.id conveys.spares
  paired := conveys.conducts.rest.paired
  holds := conveys.conducts.holds
  track k' t' live' := by
    rcases live_replace live' with ⟨_, same⟩ | ⟨other, old⟩
    · cases same
      exact conveys.conducts
    · exact h.spared old conveys.conducts.rest.paired conveys.conducts.holds conveys.spares
        conveys.loads (h.registered.ne live old other)

/-- A track comes up. -/
theorem push (h : b.Conducts layer) {s : Store δ α n} (conducts : Rig.Conducts layer ⟨s, t⟩)
    (id : t.iterate.id = b.store.lastId + 1) (lastId : s.lastId = b.store.lastId + 1)
    (spares : b.store.Spares t.iterate.id s) (loads : b.store.jacobianLoads ≤ s.jacobianLoads) :
    Conducts layer { b with store := s, tracks := b.tracks.push (some t) } where
  registered := h.registered.push id lastId spares
  paired := conducts.rest.paired
  holds := conducts.holds
  track k' t' live' := by
    rcases live_push live' with ⟨_, rfl⟩ | old
    · exact conducts
    · exact h.spared old conducts.rest.paired conducts.holds spares loads
        (id ▸ h.registered.ne_next old)

theorem add (h : b.Conducts layer) (x : Vector α n) {overlay : Overlay α}
    (bare : overlay.strategy = none) : Conducts layer { b with
      store := b.store.register.2
      tracks := b.tracks.push (some
        { iterate := (Iterate.new b.store x).1, overlay := overlay }) } := by
  refine h.push (.of_stale ⟨h.paired, .of_fresh rfl⟩ h.holds ?_ nofun) rfl rfl (.register ..)
    (Nat.le_refl _)
  intro a g there
  rw [show overlay.strategy = some a from there] at bare
  cases bare

theorem copy (h : b.Conducts layer) (live : b.Live k t) : Conducts layer { b with
    store := (t.deepClone b.store).2
    tracks := b.tracks.push (some (t.deepClone b.store).1) } := by
  have old := h.track k t live
  refine h.push (old.still ⟨?_, old.rest.rests.residual, old.rest.rests.jacobian⟩ h.holds
    old.overlay rfl (fun valid ↦ ?_) fun valid ↦ ?_) rfl rfl (Registered.spares_deepClone b t)
    (Nat.le_refl _)
  · exact Store.Paired.transfer (s := b.store.register.2) h.paired _
  · exact ⟨h.registered.isValid_of_copy valid, rfl, rfl, .refl _⟩
  · exact ⟨h.registered.isValid_of_copy valid, rfl, rfl, rfl⟩

theorem retire (h : b.Conducts layer) (live : b.Live k t) :
    Conducts layer { b.replace k none with store := b.store.release t.iterate.id } where
  registered := h.registered.retire live
  paired := h.paired.release
  holds := h.holds
  track k' t' live' := by
    obtain ⟨other, old⟩ := live_of_retired live'
    exact h.spared old h.paired.release h.holds (.release ..) (Nat.le_refl _)
      (h.registered.ne live old other)

theorem setPrevious (h : b.Conducts layer) (x : Vector α n) :
    Conducts layer { b with store := b.store.setPrevious x } where
  registered := h.registered.setPrevious x
  paired := .setPrevious x
  holds := h.holds
  track k' t' live' := by
    have old := h.track k' t' live'
    have unowned : ∀ {q : Quantity} {id : OwnerId},
        (b.store.setPrevious x).owners.of q ≠ some id := by
      intro q id owned
      rw [Store.setPrevious_owner] at owned
      cases owned
    exact ⟨⟨.setPrevious x, old.rest.rests⟩, h.holds, old.overlay,
      fun valid ↦ absurd (Rig.isValid_iff.1 valid).2 unowned,
      fun valid ↦ absurd (Rig.isValid_iff.1 valid).2 unowned⟩

end Conducts

/-- What the commands to a bench are made of, apart from attaching a strategy. -/
theorem hosts_conducts (layer : δ) : Hosts (fun _ ↦ True)
    (fun I ↦ Rig.KeepsSteps I (fun _ ↦ True) ∧ Rig.KeepsUnattached I)
    (Conducts (α := α) (n := n) layer) where
  track h k t _ live := ⟨_, .refl (h.track k t live),
    ⟨Rig.keepsSteps_conveys _, Rig.keepsUnattached_conveys _⟩,
    fun _ conveys ↦ h.withEngine live conveys⟩
  beside h _ _ := ⟨⟨h.registered.known, h.registered.distinct, h.registered.owners⟩, h.paired,
    h.holds, h.track⟩
  add h x _ bare := h.add x bare
  copy h _ _ live := h.copy live
  retire h _ _ live := h.retire live
  setPrevious h x := h.setPrevious x

/-- Conductances are attached as they were made, and no strategy is attached twice. -/
def Command.AttachesUnused {β : Type} : Command α n β → Prop
  | .attach _ a => ∀ g, a.gmin? = some g → g.unused = g
  | .reattach _ => False
  | _ => True

theorem preserves_conducts {β : Type} (c : Command α n β) (unused : c.AttachesUnused) :
    Preserves (perform c) (Conducts layer) := by
  cases attaches : c.attaches with
  | false =>
    exact (hosts_conducts layer).preserves_attachless (fun keeps ↦ keeps.1) (fun keeps ↦ keeps.2) c
      (fun _ _ ↦ trivial) attaches
  | true =>
    cases c with
    | attach k a =>
      intro b h
      rw [perform]
      refine ends_onRig (fun t live ↦ ?_) fun _ ↦ h
      simp only [ends_bind, ends_get, ends_orFault, ends_set, ends_pure, Prod.forall]
      refine ⟨fun _ t' changed ↦ ?_, fun _ _ ↦ h.withEngine live (.refl (h.track k t live))⟩
      obtain ⟨_, attached, same⟩ := map_eq_ok.1 changed
      cases same
      exact h.withEngine live ((h.track k t live).attach unused attached)
    | reattach k => exact unused.elim
    | _ => cases attaches

theorem run_conducts (device : δ) (communicator : Communicator α) (linear : LinearOptions α)
    (newton : Newton α) {history : List (Request α n)}
    (unused : ∀ request ∈ history, request.2.AttachesUnused) :
    (run (empty device communicator linear newton n) history).Conducts device :=
  run_preserves ⟨empty_registered _ _ _ _, rfl, .refl, fun _ _ live ↦ by cases live⟩
    fun request member ↦ preserves_conducts request.2 (unused request member)

/-- What is valid for a track that conductances are attached to: in each row of an unknown that is
not clamped stands the conductance there, as of an earlier time, and on the diagonal the one of now.
The two differ at most in which unknowns they take for such without an element, which is what an
earlier Jacobian has shown, if there was one, and the one that is stored.  They are equal if and
only if that is the same at the unknown or the conductance is not below the one of the end, and so
always with a device layer that gives each row an entry. -/
theorem conductance_terms_of_history (device : δ) (communicator : Communicator α)
    (linear : LinearOptions α) (newton : Newton α) (history : List (Request α n))
    (unused : ∀ request ∈ history, request.2.AttachesUnused) :
    let b := run (empty device communicator linear newton n) history
    ∀ (k : Nat) (t : Track α n), b.Live k t → t.iterate.isValid b.store Quantity.residual = true →
      t.iterate.isValid b.store Quantity.jacobian = true → ∀ (a : Augmentation α) (g : Gmin α),
        t.overlay.strategy = some a → a.gmin? = some g → ∃ before f f' A A',
          Rig.Terms device ⟨b.store, t⟩ a g before f f' A A' ∧
            ∀ i ∈ g.partition.indices,
              (before.tie i = g.tie i ↔ before.floating.contains i = rowIsEmpty A i ∨
                Scalar.max g.conductance (Scalar.exp10 g.stop) = g.conductance) ∧
              ((∀ (x previous : Vector α n) (B : Mat α n n),
                Device.GivesJacobian device x previous B → rowIsEmpty B i = false) →
                  before.tie i = g.tie i) := by
  intro b k t live residual jacobian a g there conducts
  have h := (run_conducts device communicator linear newton unused).track k t live
  obtain ⟨before, f, f', A, A', terms⟩ := h.terms residual jacobian there conducts
  exact ⟨before, f, f', A, A', terms, fun i member ↦
    ⟨terms.agrees member, terms.agrees_of_entries member⟩⟩

/-- Nothing leads from the unknown to anywhere, and that is seen only when the residual is there.
There is no conductance in it, but the Jacobian has one. -/
theorem conductance_terms_apart :
    let layer : Conductors := { conductance := 0, current := 1 }
    let sweep : Gmin ExtendedRat := { partition := .full 1, progress := -1, stop := -1, floor := 0 }
    let history : List (Request ExtendedRat 1) := [⟨_, .add #[2]⟩, ⟨_, .attach 0 (.gmin sweep)⟩,
      ⟨_, .computeResidual 0⟩, ⟨_, .computeJacobian 0⟩]
    let newton : Newton ExtendedRat := { battery := .new .serial .standard {} false }
    let b := run (empty layer .serial .standard newton 1) history
    (∀ request ∈ history, request.2.AttachesUnused) ∧
      b.store.residual = (Device.loadResidual layer #v[2] #v[0] #v[0]).buffer ∧
      (Device.loadJacobian layer #v[2] #v[0] (Mat.zero ExtendedRat 1 1)).buffer 0 0 = 0 ∧
      b.store.jacobian 0 0 = 1 / 10 ∧ ∃ t a g, b.Live 0 t ∧
        t.iterate.isValid b.store Quantity.residual = true ∧
        t.iterate.isValid b.store Quantity.jacobian = true ∧
        t.overlay.strategy = some a ∧ a.gmin? = some g ∧ ∃ before f f' A A',
          Rig.Terms layer ⟨b.store, t⟩ a g before f f' A A' := by
  intro layer sweep history newton b
  have unused : ∀ request ∈ history, request.2.AttachesUnused := by
    simp only [history, List.forall_mem_cons, List.not_mem_nil, false_implies, implies_true,
      and_true]
    refine ⟨trivial, ?_, trivial, trivial⟩
    rintro _ ⟨⟩
    rfl
  have valid : (b.tracks[0]?.join.any fun t ↦ t.iterate.isValid b.store Quantity.residual &&
      t.iterate.isValid b.store Quantity.jacobian && t.overlay.gmin?.isSome) = true := by
    decide +kernel
  refine ⟨unused, by decide +kernel, by decide +kernel, by decide +kernel, ?_⟩
  obtain ⟨t, live, valid⟩ := (Option.any_eq_true ..).1 valid
  simp only [Bool.and_eq_true] at valid
  obtain ⟨⟨residual, jacobian⟩, attached⟩ := valid
  have live : b.Live 0 t := Option.join_eq_some_iff.1 live
  obtain ⟨g, conducts⟩ := Option.isSome_iff_exists.1 attached
  obtain ⟨a, there, conducts⟩ := Option.bind_eq_some_iff.1 conducts
  obtain ⟨before, f, f', A, A', terms, -⟩ := conductance_terms_of_history layer .serial .standard
    newton history unused 0 t live residual jacobian a g there conducts
  exact ⟨t, a, g, live, residual, jacobian, there, conducts, before, f, f', A, A', terms⟩

end Bench

end OperatingPoint
