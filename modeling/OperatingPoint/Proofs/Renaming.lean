import OperatingPoint.Track
import OperatingPoint.Proofs.SideBySide
import OperatingPoint.Proofs.TrackShifts

/-!
# Other identities

What a store does under one identity it does under any other, as long as different identities stay
different: `Store.rename` changes the identities and nothing else, and every program of a rig
matches itself where the store and the track go by other identities.

A track notes the generation in which it last handed a point over.  Two notes make no difference if
they are the same, if neither of them is about the point at hand, or if the device layer does
nothing with accepted points.
-/

set_option autoImplicit false

namespace OperatingPoint

open Step

/-- A renaming of numbers that are given out in turn, `next` being the first that was not given out
yet: different numbers stay different, and those to come move up by one. -/
structure MakesWay (ρ : Nat → Nat) (next : Nat) : Prop where
  injective : ∀ {i j}, ρ i = ρ j → i = j
  beyond : ∀ i, next ≤ i → ρ i = i + 1

namespace MakesWay

variable {ρ : Nat → Nat} {next : Nat}

theorem later (h : MakesWay ρ next) {next' : Nat} (le : next ≤ next') :
    MakesWay ρ next' :=
  ⟨h.injective, fun i beyond ↦ h.beyond i (Nat.le_trans le beyond)⟩

theorem map_eq_some (h : MakesWay ρ next) {x : Option Nat} {i : Nat} :
    x.map ρ = some (ρ i) ↔ x = some i := by
  rw [Option.map_eq_some_iff]
  exact ⟨fun ⟨_, there, same⟩ ↦ h.injective same ▸ there, fun there ↦ ⟨i, there, rfl⟩⟩

theorem map_beq (h : MakesWay ρ next) (x : Option Nat) (i : Nat) :
    (x.map ρ == some (ρ i)) = (x == some i) := by
  rw [Bool.eq_iff_iff, beq_iff_eq, beq_iff_eq, h.map_eq_some]

end MakesWay

/-! ## Owners -/

namespace Owners

/-- The owners under other identities. -/
def map (ρ : OwnerId → OwnerId) (o : Owners) : Owners where
  residual := o.residual.map ρ
  jacobian := o.jacobian.map ρ
  newton := o.newton.map ρ
  gradient := o.gradient.map ρ
  auxState := o.auxState.map ρ

variable (ρ : OwnerId → OwnerId) (o : Owners)

@[simp] theorem of_map (q : Quantity) : (o.map ρ).of q = (o.of q).map ρ := by
  cases q <;> rfl

theorem map_put (q : Quantity) (id : Option OwnerId) :
    (o.put q id).map ρ = (o.map ρ).put q (id.map ρ) := by
  cases q <;> rfl

theorem map_putAll (qs : List Quantity) (id : Option OwnerId) :
    (o.putAll qs id).map ρ = (o.map ρ).putAll qs (id.map ρ) := by
  induction qs generalizing o with
  | nil => rfl
  | cons q rest ih => exact (ih (o.put q id)).trans (by rw [map_put]; rfl)

end Owners

/-! ## Stores -/

section

variable {δ α : Type} [Scalar α] [DirectSolver α] {n : Nat} {ρ : OwnerId → OwnerId}

namespace Store

/-- The store under other identities, of which one more was given out. -/
def rename (ρ : OwnerId → OwnerId) (s : Store δ α n) : Store δ α n :=
  { s with
    owners := s.owners.map ρ
    factorOwner := s.factorOwner.map ρ
    lastId := s.lastId + 1 }

/-- A store and the same store under other identities. -/
structure Renamed (ρ : OwnerId → OwnerId) (s s' : Store δ α n) : Prop where
  same : s' = s.rename ρ
  way : MakesWay ρ (s.lastId + 1)

variable {s s' : Store δ α n} {id : OwnerId}

section

omit [Scalar α]

theorem claim_rename (s : Store δ α n) (id : OwnerId) (qs : List Quantity) :
    (s.rename ρ).claim (ρ id) qs = (s.claim id qs).rename ρ := by
  unfold claim Store.rename
  rw [Owners.map_putAll]
  rfl

theorem disown_rename (s : Store δ α n) (qs : List Quantity) :
    (s.rename ρ).disown qs = (s.disown qs).rename ρ := by
  unfold disown Store.rename
  rw [Owners.map_putAll]
  rfl

namespace Renamed

theorem owns (h : s.Renamed ρ s') (id : OwnerId) (qs : QuantitySet) :
    s'.owns (ρ id) qs = s.owns id qs := by
  obtain ⟨rfl, way⟩ := h
  unfold Store.owns Store.rename
  simp only [Owners.of_map, way.map_beq]

theorem ownedBy (h : s.Renamed ρ s') (id : OwnerId) :
    s'.ownedBy (ρ id) = s.ownedBy id := by
  obtain ⟨rfl, way⟩ := h
  unfold Store.ownedBy Store.rename
  simp only [Owners.of_map, way.map_beq]

theorem factorsCurrentFor (h : s.Renamed ρ s') (id : OwnerId) :
    s'.factorsCurrentFor (ρ id) = s.factorsCurrentFor id := by
  obtain ⟨rfl, way⟩ := h
  unfold Store.factorsCurrentFor Store.rename
  rw [way.map_beq]

theorem claim (h : s.Renamed ρ s') (id : OwnerId) (qs : List Quantity) :
    (s.claim id qs).Renamed ρ (s'.claim (ρ id) qs) := by
  obtain ⟨rfl, way⟩ := h
  exact ⟨claim_rename s id qs, way⟩

theorem disown (h : s.Renamed ρ s') (qs : List Quantity) :
    (s.disown qs).Renamed ρ (s'.disown qs) := by
  obtain ⟨rfl, way⟩ := h
  exact ⟨disown_rename s qs, way⟩

/-- What becomes of the owners of what was written. -/
theorem written (h : s.Renamed ρ s') (good : Bool) (id : OwnerId) (qs : List Quantity) :
    Renamed ρ (if good then s.claim id qs else s.disown qs)
      (if good then s'.claim (ρ id) qs else s'.disown qs) := by
  cases good with
  | true => exact h.claim id qs
  | false => exact h.disown qs

theorem release (h : s.Renamed ρ s') (id : OwnerId) :
    (s.release id).Renamed ρ (s'.release (ρ id)) := by
  have owned := h.ownedBy id
  obtain ⟨rfl, way⟩ := h
  refine ⟨?_, way⟩
  unfold Store.release
  rw [owned, disown_rename]
  unfold Store.rename
  simp only [way.map_eq_some]
  split <;> rfl

theorem transfer (h : s.Renamed ρ s') (source target : OwnerId) :
    (s.transfer source target).Renamed ρ (s'.transfer (ρ source) (ρ target)) := by
  have owned := h.ownedBy source
  obtain ⟨rfl, way⟩ := h
  refine ⟨?_, way⟩
  unfold Store.transfer
  rw [owned, claim_rename]
  unfold Store.rename
  simp only [way.map_eq_some]
  split <;> rfl

theorem setPrevious (h : s.Renamed ρ s') (x : Vector α n) :
    (s.setPrevious x).Renamed ρ (s'.setPrevious x) := by
  obtain ⟨rfl, way⟩ := h
  refine ⟨?_, way⟩
  unfold Store.setPrevious
  rw [disown_rename]
  rfl

/-- The next identity goes by its new name too. -/
theorem register (h : s.Renamed ρ s') :
    s'.register.1 = ρ s.register.1 ∧ s.register.2.Renamed ρ s'.register.2 := by
  obtain ⟨rfl, way⟩ := h
  exact ⟨(way.beyond _ (Nat.le_refl _)).symm, rfl, way.later (Nat.le_succ _)⟩

end Renamed

end

variable [Device δ α]

omit [Scalar α] in
theorem matches_loadResidual (id : OwnerId) (x : Vector α n) :
    Matches (Renamed ρ) Eq (loadResidual id x : Step (Store δ α n) Bool)
      (loadResidual (ρ id) x) := by
  unfold loadResidual
  refine .get_bind ?_
  rintro s _ ⟨rfl, way⟩
  refine .andThen (.set (Renamed.written ?_ _ _ _)) fun _ ↦ .pure rfl
  exact ⟨rfl, way⟩

theorem matches_loadJacobian (id : OwnerId) (x : Vector α n) :
    Matches (Renamed ρ) Eq (loadJacobian id x : Step (Store δ α n) Bool)
      (loadJacobian (ρ id) x) := by
  unfold loadJacobian
  refine .get_bind fun s s' h ↦ ?_
  rw [h.owns]
  refine .ite Iff.rfl ?_ .fault_bind
  obtain ⟨rfl, way⟩ := h
  refine .andThen (.set (Renamed.written ?_ _ _ _)) fun _ ↦ .pure rfl
  exact ⟨rfl, way⟩

omit [Scalar α] [Device δ α] in
theorem matches_editResidual {β : Type} (id : OwnerId)
    (edit : Vector α n → Except Stop (β × Vector α n)) :
    Matches (Renamed ρ) Eq (editResidual id edit : Step (Store δ α n) β)
      (editResidual (ρ id) edit) := by
  unfold editResidual
  refine .get_bind fun s s' h ↦ ?_
  rw [h.owns]
  refine .ite Iff.rfl ?_ .fault_bind
  obtain ⟨rfl, way⟩ := h
  exact .andThen (.lift _) fun _ ↦ .andThen (.set ⟨rfl, way⟩) fun _ ↦ .pure rfl

omit [Scalar α] [Device δ α] in
theorem matches_editJacobian {β : Type} (id : OwnerId)
    (edit : Mat α n n → Except Stop (β × Mat α n n)) :
    Matches (Renamed ρ) Eq (editJacobian id edit : Step (Store δ α n) β)
      (editJacobian (ρ id) edit) := by
  unfold editJacobian
  refine .get_bind fun s s' h ↦ ?_
  rw [h.owns]
  refine .ite Iff.rfl ?_ .fault_bind
  obtain ⟨rfl, way⟩ := h
  refine .andThen (.set ⟨rfl, way⟩) fun _ ↦ ?_
  exact .andThen (.lift _) fun _ ↦ .andThen (.set ⟨rfl, way⟩) fun _ ↦ .pure rfl

omit [Device δ α] in
theorem matches_acceptDirection (id : OwnerId) (x : Vector α n) (stats : SolveStats α) :
    Matches (Renamed ρ) Eq (acceptDirection id x stats : Step (Store δ α n) Bool)
      (acceptDirection (ρ id) x stats) := by
  unfold acceptDirection
  refine .get_bind ?_
  rintro s _ ⟨rfl, way⟩
  refine .andThen (.set (Renamed.written ?_ _ _ _)) fun _ ↦ .pure rfl
  exact ⟨rfl, way⟩

omit [Device δ α] in
theorem matches_solveNewton (id : OwnerId) (reuse : Bool) :
    Matches (Renamed ρ) Eq (solveNewton id reuse : Step (Store δ α n) Bool)
      (solveNewton (ρ id) reuse) := by
  unfold solveNewton
  refine .get_bind fun s s' h ↦ ?_
  simp only [h.owns, h.factorsCurrentFor]
  refine .ite Iff.rfl ?_ .fault_bind
  refine .ite Iff.rfl ?_ .fault_bind
  obtain ⟨rfl, way⟩ := h
  refine .andThen (.attempt (.zoom (.refl _) (fun _ _ h ↦ ?_) fun _ _ _ _ h same ↦ ?_)) fun r ↦ ?_
  · rw [h.same]
    rfl
  · exact ⟨by rw [h.same, same]; rfl, h.way⟩
  · cases r with
    | ok p => exact matches_acceptDirection id p.1 p.2
    | error e =>
      cases e with
      | fault cause =>
        refine .andThen (.modify fun s s' h ↦ .disown ?_ _) fun _ ↦ .pure rfl
        obtain ⟨rfl, way⟩ := h
        exact ⟨rfl, way⟩
      | breach => exact .throw _
      | endless => exact .throw _

omit [Device δ α] in
theorem matches_computeGradient (id : OwnerId) :
    Matches (Renamed ρ) Eq (computeGradient id : Step (Store δ α n) Unit)
      (computeGradient (ρ id)) := by
  unfold computeGradient
  refine .get_bind fun s s' h ↦ ?_
  simp only [h.owns]
  refine .andThen (.forIn (fun q _ ↦ .ite Iff.rfl (.pure rfl) .fault_bind) _) fun _ ↦ ?_
  refine .set (.claim ?_ _ _)
  obtain ⟨rfl, way⟩ := h
  exact ⟨rfl, way⟩

end Store

end

end OperatingPoint
