import OperatingPoint.Proofs.AffineOverlays
import OperatingPoint.Proofs.ValidatedStrategies

/-!
# Conductances of a strategy

Two strategies lay conductances to reference over the equations.  `Augmentation.gmin?` are those of a
strategy, and what a strategy does to them while it is used is said here once: a progress variable
moves, and a load of a Jacobian leaves a note of itself and of the unknowns that it has found without
an element.  What loads do not change is in `Augmentation.unused`.

An unknown that is not clamped gets its conductance in its row of the residual and on its entry of
the diagonal.
-/

set_option autoImplicit false

namespace OperatingPoint

open Step

/-- Conductances as they are made, with nothing known of any load. -/
def Gmin.unused {α : Type} (g : Gmin α) : Gmin α :=
  { g with shift := {}, floating := IndexSet.ofList [] }

/-- What loads do not change. -/
theorem Gmin.unused_inj {α : Type} {g g' : Gmin α} (h : g.unused = g'.unused) :
    g.partition = g'.partition ∧ g.progress = g'.progress ∧ g.stop = g'.stop ∧
      g.floor = g'.floor := by
  obtain ⟨partition, progress, stop, floor, -, -⟩ := Gmin.mk.injEq .. ▸ h
  exact ⟨partition, progress, stop, floor⟩

variable {α : Type} [Scalar α] {n : Nat}

namespace Gmin

/-- The conductances once they have seen a load of a Jacobian. -/
def seeing (g : Gmin α) (A : Mat α n n) (load : Nat) : Gmin α :=
  let found : Gmin α := { g with
    floating :=
      if g.shift.isFresh load then g.partition.members.filter (rowIsEmpty A) else g.floating }
  { found with shift := ⟨some load, g.partition.indices.map found.tie⟩ }

theorem eq_seeing {g g' : Gmin α} {A A' : Mat α n n} {load : Nat}
    (run : g.augmentJacobian A load = .ok (g', A')) : g' = g.seeing A load := by
  obtain ⟨⟨_, _⟩, shifted, same⟩ := bind_eq_ok.1 run
  obtain ⟨_, _, noted⟩ := bind_eq_ok.1 shifted
  cases noted
  cases same
  rfl

theorem seeing_floating {g : Gmin α} {A : Mat α n n} {load : Nat}
    (fresh : g.shift.isFresh load = true) :
    (g.seeing A load).floating = g.partition.members.filter (rowIsEmpty A) := if_pos fresh

end Gmin

namespace Augmentation

variable {a a' : Augmentation α}

/-- The conductances of a strategy, if it has some. -/
def gmin? : Augmentation α → Option (Gmin α)
  | gmin g => some g
  | clampWithGmin g _ => some g
  | _ => none

/-- A strategy without what loads leave in it. -/
def unused : Augmentation α → Augmentation α
  | gmin g => gmin g.unused
  | clampWithGmin g c => clampWithGmin g.unused c
  | a => a.frame

theorem gmin?_frame (a : Augmentation α) : a.frame.gmin? =
    a.gmin?.map fun g ↦ { g with progress := 0, shift := {}, floating := IndexSet.ofList [] } := by
  cases a <;> rfl

theorem gmin?_unused (a : Augmentation α) : a.unused.gmin? = a.gmin?.map Gmin.unused := by
  cases a <;> rfl

theorem pinnedRows_unused (a : Augmentation α) : a.unused.pinnedRows = a.pinnedRows := by
  cases a <;> rfl

/-! ## What use does to them -/

theorem setProgress_gmin? {value : α} (told : a.setProgress value = .ok a') :
    a'.gmin? = a.gmin?.map fun g ↦ { g with progress := value } := by
  cases a <;> cases told <;> rfl

/-- A change of a residual leaves the conductances alone, and everything that loads do not change. -/
theorem augmentResidual_gmin? {x f f' : Vector α n}
    (run : a.augmentResidual x f = .ok (a', f')) : a'.gmin? = a.gmin? ∧ a'.unused = a.unused := by
  cases a with
  | gmin g =>
    obtain ⟨_, _, same⟩ := bind_eq_ok.1 run
    cases same
    exact ⟨rfl, rfl⟩
  | pseudoTransient p =>
    cases run
    exact ⟨rfl, rfl⟩
  | clamp c =>
    obtain ⟨_, _, same⟩ := bind_eq_ok.1 run
    cases same
    exact ⟨rfl, rfl⟩
  | clampWithGmin g c =>
    obtain ⟨_, _, run⟩ := bind_eq_ok.1 run
    obtain ⟨_, _, same⟩ := bind_eq_ok.1 run
    cases same
    exact ⟨rfl, rfl⟩
  | seed s =>
    have frame := augmentResidual_frame run
    obtain ⟨_, _, same⟩ := bind_eq_ok.1 run
    cases same
    exact ⟨rfl, frame⟩

/-- A change of a Jacobian shows the load to the conductances. -/
theorem augmentJacobian_gmin? {A A' : Mat α n n} {load : Nat}
    (run : a.augmentJacobian A load = .ok (a', A')) :
    a'.gmin? = (a.gmin?.map fun g ↦ g.seeing A load) ∧ a'.unused = a.unused := by
  have frame := augmentJacobian_frame run
  cases a with
  | gmin g =>
    obtain ⟨⟨g', _⟩, run, same⟩ := bind_eq_ok.1 run
    cases same
    cases Gmin.eq_seeing run
    exact ⟨rfl, rfl⟩
  | pseudoTransient p =>
    obtain ⟨_, _, same⟩ := bind_eq_ok.1 run
    cases same
    exact ⟨rfl, frame⟩
  | clamp c =>
    obtain ⟨_, _, same⟩ := bind_eq_ok.1 run
    cases same
    exact ⟨rfl, rfl⟩
  | clampWithGmin g c =>
    obtain ⟨⟨g', _⟩, shifted, run⟩ := bind_eq_ok.1 run
    obtain ⟨_, _, same⟩ := bind_eq_ok.1 run
    cases same
    cases Gmin.eq_seeing shifted
    exact ⟨rfl, rfl⟩
  | seed s =>
    obtain ⟨_, _, same⟩ := bind_eq_ok.1 run
    cases same
    exact ⟨rfl, frame⟩

/-! ## Where they stand -/

variable {g : Gmin α}

/-- The row of an unknown that has a conductance and is not clamped. -/
theorem augmentResidual_row (conducts : a.gmin? = some g) (fits : a.Fits n) {x f f' : Vector α n}
    (run : a.augmentResidual x f = .ok (a', f')) {i : Fin n}
    (member : i.val ∈ g.partition.indices) (free : i.val ∉ a.pinnedRows) :
    f'.get i = f.get i + g.tie i * x.get i := by
  cases a with
  | gmin g₀ =>
    cases conducts
    obtain ⟨_, added, same⟩ := bind_eq_ok.1 run
    cases same
    rw [Gmin.augmentResidual_eq (fits _ (.head _))] at added
    cases added
    rw [get_ofFn, if_pos member]
  | clampWithGmin g₀ c =>
    cases conducts
    obtain ⟨_, added, run⟩ := bind_eq_ok.1 run
    obtain ⟨_, clamped, same⟩ := bind_eq_ok.1 run
    cases same
    rw [Gmin.augmentResidual_eq (fits _ (.head _))] at added
    cases added
    rw [Clamp.augmentResidual_eq (fits _ (.tail _ (.head _)))] at clamped
    cases clamped
    rw [get_ofFn, Clamp.lookup_free free, Option.map_none, Option.getD_none, get_ofFn,
      if_pos member]
  | pseudoTransient | clamp | seed => cases conducts

/-- The entry of the diagonal at such an unknown, where the load is fresh. -/
theorem augmentJacobian_diagonal (conducts : a.gmin? = some g) (fits : a.Fits n)
    {A A' : Mat α n n} {load : Nat} (fresh : g.shift.isFresh load = true)
    (run : a.augmentJacobian A load = .ok (a', A')) {i : Fin n}
    (member : i.val ∈ g.partition.indices) (free : i.val ∉ a.pinnedRows) :
    A' i i = A i i + (g.seeing A load).tie i := by
  have shifts : a.shift? = some g.shift := by
    cases a <;> cases conducts <;> rfl
  have rows : a.shiftedRows = g.partition.indices := by
    cases a <;> cases conducts <;> rfl
  have amount : a.amountOn A = g.amountOn A := by
    cases a <;> cases conducts <;> rfl
  have tie : (g.seeing A load).tie i = g.amountOn A i :=
    Gmin.tie_eq (g := g.seeing A load) (Gmin.seeing_floating fresh) member
  rw [augmentJacobian_fresh shifts fresh fits] at run
  cases run
  rw [augmented_apply, if_neg free, rows, if_pos ⟨rfl, member⟩, amount, tie]

end Augmentation

/-- The conductances of the strategy that is attached. -/
def Overlay.gmin? (o : Overlay α) : Option (Gmin α) := o.strategy.bind Augmentation.gmin?

end OperatingPoint
