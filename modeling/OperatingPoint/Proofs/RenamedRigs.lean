import OperatingPoint.Proofs.Attempts
import OperatingPoint.Proofs.Renaming

/-!
# Rigs under other identities

A rig computes the same whatever the identity of its track is, if the store goes by the same other
identities: every program of a rig matches itself.

A track notes the generation in which it last handed a point over, and hands a point over only if
the note is not about it.  Two notes are alike if they are the same, if both are about earlier
points, or if the device layer does nothing with accepted points.
-/

set_option autoImplicit false

namespace OperatingPoint

open Step

/-- The device layer does nothing with accepted points. -/
def Device.IgnoresAccepted (δ : Type) {α : Type} [Device δ α] : Prop :=
  ∀ (device : δ) (x : Array α), Device.accept device x = device

variable {δ α : Type} [Scalar α] {n : Nat} {β : Type}

namespace Track

/-- The track under another identity and with another note of what it handed over. -/
def under (t : Track α n) (id : OwnerId) (captured : Option Nat) : Track α n :=
  { t with iterate := { t.iterate with id := id }, captured := captured }

/-- A change that is the same whatever the identity and the note are, and that leads to no earlier
generation. -/
structure Impersonal (change : Track α n → Track α n) : Prop where
  under : ∀ t id captured, change (t.under id captured) = (change t).under id captured
  generation : ∀ t, t.iterate.generation ≤ (change t).iterate.generation

namespace Impersonal

variable {change change' : Track α n → Track α n}

theorem comp (h : Impersonal change) (h' : Impersonal change') :
    Impersonal fun t ↦ change' (change t) where
  under t id captured := by rw [h.under, h'.under]
  generation t := Nat.le_trans (h.generation t) (h'.generation _)

theorem foldl {ι : Type} {change : Track α n → ι → Track α n}
    (h : ∀ i, Impersonal fun t ↦ change t i) (list : List ι) :
    Impersonal fun t ↦ list.foldl change t := by
  induction list with
  | nil => exact ⟨fun _ _ _ ↦ rfl, fun _ ↦ Nat.le_refl _⟩
  | cons i rest ih => exact (h i).comp ih

/-- Such a change leaves the identity and the note alone. -/
theorem id_captured (h : Impersonal change) (t : Track α n) :
    (change t).iterate.id = t.iterate.id ∧ (change t).captured = t.captured := by
  have same : change t = (change t).under t.iterate.id t.captured := h.under t _ _
  rw [same]
  exact ⟨rfl, rfl⟩

/-- A change of what is known at the iterate, in the generation that it is in. -/
theorem ofFlags (change : Flags → Flags) : Impersonal fun t : Track α n ↦
    { t with iterate := { t.iterate with flags := change t.iterate.flags } } :=
  ⟨fun _ _ _ ↦ rfl, fun _ ↦ Nat.le_refl _⟩

theorem setX (x : Vector α n) : Impersonal fun t : Track α n ↦ t.setX x :=
  ⟨fun _ _ _ ↦ rfl, fun _ ↦ Nat.le_succ _⟩

theorem setParameter (name : String) (value : α) :
    Impersonal fun t : Track α n ↦ t.setParameter name value where
  under t id captured := by
    unfold Track.setParameter
    rw [apply_ite fun t : Track α n ↦ t.under id captured]
    rfl
  generation t := (t.setParameter_shifts name value).generation

theorem removeParameter (name : String) :
    Impersonal fun t : Track α n ↦ t.removeParameter name where
  under t id captured := by
    unfold Track.removeParameter
    rw [apply_ite fun t : Track α n ↦ t.under id captured]
    rfl
  generation t := (t.removeParameter_shifts name).generation

theorem setForwarding (forwarding : Bool) :
    Impersonal fun t : Track α n ↦ t.setForwarding forwarding where
  under t id captured := by
    unfold Track.setForwarding
    rw [apply_ite fun t : Track α n ↦ t.under id captured]
    rfl
  generation t := (t.setForwarding_shifts forwarding).generation

theorem detach : Impersonal fun t : Track α n ↦ t.detach where
  under t id captured := by
    unfold Track.detach
    rw [apply_ite fun t : Track α n ↦ t.under id captured]
    rfl
  generation t := t.detach_shifts.generation

theorem detachBlend : Impersonal fun t : Track α n ↦ t.detachBlend where
  under t id captured := by
    unfold Track.detachBlend
    rw [apply_ite fun t : Track α n ↦ t.under id captured]
    rfl
  generation t := t.detachBlend_shifts.generation

end Impersonal

/-- A change that may be refused, and that is the same whatever the identity and the note are. -/
structure ImpersonalAsk (ask : Track α n → Except Fault (β × Track α n)) : Prop where
  under : ∀ t id captured, ask (t.under id captured) =
    (ask t).map fun answer ↦ (answer.1, answer.2.under id captured)
  generation : ∀ {t b t'}, ask t = .ok (b, t') → t.iterate.generation ≤ t'.iterate.generation

namespace ImpersonalAsk

/-- A change that is not refused, with something read off the overlay. -/
theorem of_change {change : Track α n → Track α n} (h : Impersonal change) (read : Overlay α → β) :
    ImpersonalAsk fun t ↦ .ok (read t.overlay, change t) where
  under t id captured := congrArg (fun t' ↦ Except.ok (read t.overlay, t')) (h.under t id captured)
  generation changed := by
    cases changed
    exact h.generation _

theorem attach (a : Augmentation α) :
    ImpersonalAsk fun t : Track α n ↦ (t.attach a).map ((), ·) where
  under t id captured := by
    have overlay : (t.under id captured).overlay = t.overlay := rfl
    show ((t.under id captured).attach a).map _ = _
    unfold Track.attach
    rw [overlay]
    cases t.overlay.strategy with
    | some old => rfl
    | none => cases a.validate n <;> rfl
  generation changed := by
    obtain ⟨t', attached, same⟩ := map_eq_ok.1 changed
    cases same
    exact (attach_shifts attached).generation

/-- Such a change leaves the identity and the note alone. -/
theorem id_captured {ask : Track α n → Except Fault (β × Track α n)} (h : ImpersonalAsk ask)
    {t t' : Track α n} {b : β} (asked : ask t = .ok (b, t')) :
    t'.iterate.id = t.iterate.id ∧ t'.captured = t.captured := by
  have same : ask t = (ask t).map fun answer ↦
    (answer.1, answer.2.under t.iterate.id t.captured) := h.under t _ _
  rw [asked] at same
  have same : t' = t'.under t.iterate.id t.captured :=
    (Prod.mk.inj (Except.ok.inj same)).2
  rw [same]
  exact ⟨rfl, rfl⟩

end ImpersonalAsk

theorem acceptPseudoStep_under (t : Track α n) (norm : α) (id : OwnerId) (captured : Option Nat) :
    (t.under id captured).acceptPseudoStep norm =
      (t.acceptPseudoStep norm).map (·.under id captured) := by
  unfold acceptPseudoStep
  show t.pseudoTime? >>= _ = _
  cases t.pseudoTime? <;> rfl

theorem halvePseudoStep_under (t : Track α n) (id : OwnerId) (captured : Option Nat) :
    (t.under id captured).halvePseudoStep =
      t.halvePseudoStep.map fun answer ↦ (answer.1.under id captured, answer.2) := by
  unfold halvePseudoStep
  show t.pseudoTime? >>= _ = _
  cases t.pseudoTime? with
  | error => rfl
  | ok p =>
    dsimp only [bind, Except.bind]
    cases p.halve <;> rfl

/-- Another step in pseudo-time, under the same identity and in the same generation. -/
theorem acceptPseudoStep_frame {t t' : Track α n} {norm : α}
    (accepted : t.acceptPseudoStep norm = .ok t') :
    ∃ p, t' = t.putPseudoTime p := by
  obtain ⟨p, _, same⟩ := bind_eq_ok.1 accepted
  cases same
  exact ⟨_, rfl⟩

theorem halvePseudoStep_frame {t t' : Track α n} {halved : Bool}
    (done : t.halvePseudoStep = .ok (t', halved)) : ∃ p, t' = t.putPseudoTime p := by
  obtain ⟨p, _, done⟩ := bind_eq_ok.1 done
  split at done
  · cases done
    exact ⟨_, rfl⟩
  · cases done
    exact ⟨_, rfl⟩

namespace ImpersonalAsk

theorem acceptPseudoStep (norm : α) : ImpersonalAsk fun t : Track α n ↦ do
    let t ← t.acceptPseudoStep norm
    return ((← t.pseudoTime?).step, t) where
  under t id captured := by
    rw [acceptPseudoStep_under]
    cases t.acceptPseudoStep norm with
    | error cause => rfl
    | ok t' =>
      show (t'.pseudoTime? >>= fun p ↦ .ok (p.step, t'.under id captured)) =
        (t'.pseudoTime? >>= fun p ↦ .ok (p.step, t')).map _
      cases t'.pseudoTime? <;> rfl
  generation changed := by
    obtain ⟨t', accepted, changed⟩ := bind_eq_ok.1 changed
    obtain ⟨_, _, same⟩ := bind_eq_ok.1 changed
    cases same
    obtain ⟨p, rfl⟩ := acceptPseudoStep_frame accepted
    exact Nat.le_refl _

theorem halvePseudoStep :
    ImpersonalAsk fun t : Track α n ↦ t.halvePseudoStep.map Prod.swap where
  under t id captured := by
    rw [halvePseudoStep_under]
    cases t.halvePseudoStep <;> rfl
  generation changed := by
    obtain ⟨⟨t', halved⟩, done, same⟩ := map_eq_ok.1 changed
    cases same
    obtain ⟨p, rfl⟩ := halvePseudoStep_frame done
    exact Nat.le_refl _

end ImpersonalAsk

/-- Notes of the last point that was handed over, between which the point at hand makes no
difference: they are the same, both are about earlier points, or nobody heeds accepted points. -/
inductive NotesAlike (ignored : Prop) (generation : Nat) (note note' : Option Nat) : Prop
  | same (same : note' = note)
  | past (past : ∀ g ∈ note, g < generation) (past' : ∀ g ∈ note', g < generation)
  | ignored (h : ignored)

theorem NotesAlike.later {ignored : Prop} {generation generation' : Nat} {note note' : Option Nat}
    (h : NotesAlike ignored generation note note') (le : generation ≤ generation') :
    NotesAlike ignored generation' note note' := by
  cases h with
  | same same => exact .same same
  | past past past' =>
    exact .past (fun g noted ↦ Nat.lt_of_lt_of_le (past g noted) le)
      fun g noted ↦ Nat.lt_of_lt_of_le (past' g noted) le
  | ignored h => exact .ignored h

end Track

variable [DirectSolver α] [Device δ α] {ρ : OwnerId → OwnerId}

namespace Rig

/-- A rig, and the same rig under other identities and with another note of what was handed over. -/
structure Renamed (ρ : OwnerId → OwnerId) (r r' : Rig δ α n) : Prop where
  store : r.store.Renamed ρ r'.store
  track : r'.track = r.track.under (ρ r.track.iterate.id) r'.track.captured
  notes : Track.NotesAlike (Device.IgnoresAccepted δ) r.track.iterate.generation r.track.captured
    r'.track.captured

namespace Renamed

variable {r r' : Rig δ α n}

theorem iterate (h : r.Renamed ρ r') :
    r'.track.iterate = { r.track.iterate with id := ρ r.track.iterate.id } := by
  rw [h.track]
  rfl

theorem generation (h : r.Renamed ρ r') :
    r'.track.iterate.generation = r.track.iterate.generation := by
  rw [h.iterate]

theorem overlay (h : r.Renamed ρ r') : r'.track.overlay = r.track.overlay := by
  rw [h.track]
  rfl

theorem isValid (h : r.Renamed ρ r') (qs : QuantitySet) :
    r'.track.iterate.isValid r'.store qs = r.track.iterate.isValid r.store qs := by
  unfold Iterate.isValid
  rw [h.iterate, h.store.owns]
  rfl

theorem valid (h : r.Renamed ρ r') (q : Quantity) : r'.isValid q = r.isValid q := h.isValid q

/-- The same change, if it is none that depends on the identity or the note. -/
theorem modify (h : r.Renamed ρ r') {change : Track α n → Track α n}
    (impersonal : Track.Impersonal change) :
    Renamed ρ { r with track := change r.track } { r' with track := change r'.track } where
  store := h.store
  track := by
    show change r'.track = (change r.track).under (ρ (change r.track).iterate.id)
      (change r'.track).captured
    rw [(impersonal.id_captured r.track).1, (impersonal.id_captured r'.track).2, ← impersonal.under,
      ← h.track]
  notes := by
    show Track.NotesAlike _ _ (change r.track).captured (change r'.track).captured
    rw [(impersonal.id_captured r.track).2, (impersonal.id_captured r'.track).2]
    exact h.notes.later (impersonal.generation r.track)

/-- Another track under the same identity and with the same note. -/
theorem withTrack (h : r.Renamed ρ r') {t : Track α n} (id : t.iterate.id = r.track.iterate.id)
    (captured : t.captured = r.track.captured)
    (generation : r.track.iterate.generation ≤ t.iterate.generation) :
    Renamed ρ { r with track := t }
      { r' with track := t.under (ρ r.track.iterate.id) r'.track.captured } where
  store := h.store
  track := by rw [id]; rfl
  notes := captured ▸ h.notes.later generation

end Renamed

theorem matches_modifyTrack {change : Track α n → Track α n}
    (impersonal : Track.Impersonal change) :
    Matches (Renamed ρ) Eq (modifyTrack change : Step (Rig δ α n) Unit) (modifyTrack change) :=
  .modify fun _ _ h ↦ h.modify impersonal

/-- A change that may be refused, with its answer. -/
theorem matches_ask {ask : Track α n → Except Fault (β × Track α n)}
    (impersonal : Track.ImpersonalAsk ask) :
    Matches (Renamed ρ) Eq
      (do
        let r ← get
        let (b, t) ← Step.orFault (ask r.track)
        set { r with track := t }
        return b : Step (Rig δ α n) β)
      (do
        let r ← get
        let (b, t) ← Step.orFault (ask r.track)
        set { r with track := t }
        return b) := by
  refine .get_bind fun r r' h ↦ ?_
  rw [h.track, impersonal.under]
  refine .bind (.orFault_map _ _) ?_
  rintro ⟨b, t⟩ _ ⟨asked, rfl⟩
  obtain ⟨id, captured⟩ := impersonal.id_captured asked
  exact .andThen (.set (h.withTrack id captured (impersonal.generation asked))) fun _ ↦ .pure rfl

theorem matches_modifyFlags (change : Flags → Flags) :
    Matches (Renamed ρ) Eq (modifyFlags change : Step (Rig δ α n) Unit) (modifyFlags change) :=
  matches_modifyTrack (.ofFlags change)

theorem matches_onStore {act act' : Step (Store δ α n) β}
    (h : Matches (Store.Renamed ρ) Eq act act') :
    Matches (Renamed ρ) Eq (onStore act) (onStore act') :=
  .zoom h (fun _ _ h ↦ h.store) fun _ _ _ _ h store ↦ ⟨store, h.track, h.notes⟩

theorem matches_giveToDevice (name : String) (value : α) :
    Matches (Renamed ρ) Eq (giveToDevice name value : Step (Rig δ α n) Unit)
      (giveToDevice name value) := by
  unfold giveToDevice
  refine .get_bind fun r r' h ↦ ?_
  obtain ⟨⟨same, way⟩, track, notes⟩ := h
  rw [same]
  refine .andThen (.set ⟨⟨rfl, way⟩, track, notes⟩) fun _ ↦ ?_
  exact .ite Iff.rfl (.pure rfl) (.throw _)

theorem matches_forwardOne (name : String) (value : α) :
    Matches (Renamed ρ) Eq (forwardOne name value : Step (Rig δ α n) Unit)
      (forwardOne name value) := by
  unfold forwardOne
  refine .get_bind fun r r' h ↦ ?_
  rw [h.overlay]
  refine .ite Iff.rfl ?_ (matches_giveToDevice name value)
  refine .andThen (.orFault _) fun overlay ↦ .set ?_
  rw [h.track]
  exact h.withTrack (t := { r.track with overlay := overlay }) rfl rfl (Nat.le_refl _)

theorem matches_forwardAll (entries : List (String × α)) :
    Matches (Renamed ρ) Eq (forwardAll entries : Step (Rig δ α n) Unit) (forwardAll entries) := by
  induction entries with
  | nil => exact .pure rfl
  | cons entry rest ih => exact .andThen (matches_forwardOne entry.1 entry.2) fun _ ↦ ih

theorem matches_forward :
    Matches (Renamed ρ) Eq (forward : Step (Rig δ α n) Unit) forward := by
  unfold forward
  refine .get_bind fun r r' h ↦ ?_
  rw [h.overlay]
  exact .ite Iff.rfl (matches_forwardAll _) (.pure rfl)

theorem matches_pushParameter (name : String) (value : α) :
    Matches (Renamed ρ) Eq (pushParameter name value : Step (Rig δ α n) Unit)
      (pushParameter name value) :=
  .andThen (matches_modifyTrack (.setParameter name value)) fun _ ↦ matches_giveToDevice name value

theorem matches_measure :
    Matches (Renamed ρ) Eq (measure : Step (Rig δ α n) Unit) measure := by
  unfold measure
  refine .get_bind fun r r' h ↦ ?_
  rw [h.store.same]
  exact matches_modifyTrack ⟨fun _ _ _ ↦ rfl, fun _ ↦ Nat.le_refl _⟩

theorem matches_loadResidual :
    Matches (Renamed ρ) Eq (loadResidual : Step (Rig δ α n) Bool) loadResidual := by
  unfold loadResidual
  refine .andThen matches_forward fun _ ↦ .get_bind fun r r' h ↦ ?_
  rw [h.iterate]
  refine .andThen (matches_onStore (Store.matches_loadResidual _ _)) fun ok ↦ ?_
  refine .ite Iff.rfl (.get_bind fun r₁ r₁' h₁ ↦ ?_) ?_
  · rw [h₁.overlay]
    refine .andThen (matches_onStore (Store.matches_editResidual _ _)) fun overlay ↦ ?_
    refine .andThen (matches_modifyTrack ⟨fun _ _ _ ↦ rfl, fun _ ↦ Nat.le_refl _⟩) fun _ ↦ ?_
    exact .andThen matches_measure fun _ ↦ .pure rfl
  · exact .andThen (matches_modifyTrack ⟨fun _ _ _ ↦ rfl, fun _ ↦ Nat.le_refl _⟩) fun _ ↦ .pure rfl

theorem matches_computeResidual :
    Matches (Renamed ρ) Eq (computeResidual : Step (Rig δ α n) Bool) computeResidual := by
  unfold computeResidual
  refine .get_bind fun r r' h ↦ ?_
  rw [h.valid]
  refine .ite Iff.rfl (.pure rfl) (.get_bind fun r₁ r₁' h₁ ↦ ?_)
  rw [h₁.iterate]
  refine .ite Iff.rfl .fault_bind ?_
  refine .andThen (matches_modifyFlags _) fun _ ↦ ?_
  refine .andThen (.attempt matches_loadResidual) fun result ↦ ?_
  cases result with
  | ok loaded =>
    cases loaded with
    | true => exact .andThen (matches_modifyFlags _) fun _ ↦ .pure rfl
    | false => exact .andThen (matches_modifyFlags _) fun _ ↦ .pure rfl
  | error stop => exact .andThen (matches_modifyFlags _) fun _ ↦ .throw stop

theorem matches_loadJacobian :
    Matches (Renamed ρ) Eq (loadJacobian : Step (Rig δ α n) Bool) loadJacobian := by
  unfold loadJacobian
  refine .get_bind fun r r' h ↦ ?_
  rw [h.iterate]
  refine .andThen (matches_onStore (Store.matches_loadJacobian _ _)) fun ok ↦ ?_
  refine .ite Iff.rfl (.get_bind fun r₁ r₁' h₁ ↦ ?_) (.pure rfl)
  rw [h₁.overlay, h₁.store.same]
  refine .andThen (matches_onStore (Store.matches_editJacobian _ _)) fun overlay ↦ ?_
  exact .andThen (matches_modifyTrack ⟨fun _ _ _ ↦ rfl, fun _ ↦ Nat.le_refl _⟩) fun _ ↦ .pure rfl

theorem matches_computeJacobian :
    Matches (Renamed ρ) Eq (computeJacobian : Step (Rig δ α n) Bool) computeJacobian := by
  unfold computeJacobian
  refine .get_bind fun r r' h ↦ ?_
  rw [h.valid]
  refine .ite Iff.rfl (.pure rfl) (.get_bind fun r₁ r₁' h₁ ↦ ?_)
  rw [h₁.iterate]
  refine .ite Iff.rfl .fault_bind (.get_bind fun r₂ r₂' h₂ ↦ ?_)
  rw [h₂.valid, h₂.iterate, h₂.store.owns]
  -- The load comes after a residual that is computed anew, or at once.
  suffices load : _ from .ite Iff.rfl (.andThen (matches_modifyFlags _) fun _ ↦
    .andThen matches_computeResidual fun ok ↦ .ite Iff.rfl load (.pure rfl)) load
  refine .get_bind fun r₃ r₃' h₃ ↦ ?_
  rw [h₃.iterate, h₃.store.owns]
  refine .ite Iff.rfl ?_ .fault_bind
  refine .andThen (matches_modifyFlags _) fun _ ↦ ?_
  refine .andThen (.attempt matches_loadJacobian) fun result ↦ ?_
  cases result with
  | ok loaded =>
    cases loaded with
    | true => exact .andThen (matches_modifyFlags _) fun _ ↦ .pure rfl
    | false => exact .andThen (matches_modifyFlags _) fun _ ↦ .pure rfl
  | error stop => exact .andThen (matches_modifyFlags _) fun _ ↦ .throw stop

theorem matches_computeNewton (mayReuse : Bool) :
    Matches (Renamed ρ) Eq (computeNewton mayReuse : Step (Rig δ α n) Bool)
      (computeNewton mayReuse) := by
  unfold computeNewton
  refine .get_bind fun r r' h ↦ ?_
  simp only [h.valid, h.iterate, h.store.factorsCurrentFor]
  refine .ite Iff.rfl (.pure rfl) (.ite Iff.rfl (.ite Iff.rfl ?_ .fault_bind) .fault_bind)
  refine .andThen (matches_modifyFlags _) fun _ ↦ ?_
  refine .andThen (.attempt (matches_onStore (Store.matches_solveNewton _ _))) fun result ↦ ?_
  cases result with
  | ok solved => exact .andThen (matches_modifyFlags _) fun _ ↦ .pure rfl
  | error stop => exact .andThen (matches_modifyFlags _) fun _ ↦ .throw stop

theorem matches_computeGradient :
    Matches (Renamed ρ) Eq (computeGradient : Step (Rig δ α n) Unit) computeGradient := by
  unfold computeGradient
  refine .get_bind fun r r' h ↦ ?_
  simp only [h.valid, h.iterate]
  refine .ite Iff.rfl (.pure rfl) (.ite Iff.rfl ?_ .fault_bind)
  exact .andThen (matches_onStore (Store.matches_computeGradient _)) fun _ ↦ matches_modifyFlags _

theorem Renamed.accepted {r r' : Rig δ α n} (h : r.Renamed ρ r') :
    r.accepted.Renamed ρ r'.accepted where
  store := by
    obtain ⟨same, way⟩ := h.store
    refine ⟨?_, way⟩
    unfold Rig.accepted Track.x
    rw [same, h.iterate]
    rfl
  track := by
    unfold Rig.accepted
    rw [h.track]
    rfl
  notes := by
    unfold Rig.accepted
    rw [h.generation]
    exact .same rfl

/-- A point is handed over in both, in neither, or where nobody heeds it. -/
theorem Renamed.handedOver {r r' : Rig δ α n} (h : r.Renamed ρ r') :
    r.handedOver.Renamed ρ r'.handedOver := by
  cases h.notes with
  | same same =>
    unfold Rig.handedOver
    rw [h.generation, same]
    split
    · exact h
    · exact h.accepted
  | past past past' =>
    have unnoted : r.track.captured ≠ some r.track.iterate.generation :=
      fun noted ↦ Nat.lt_irrefl _ (past _ noted)
    have unnoted' : r'.track.captured ≠ some r.track.iterate.generation :=
      fun noted ↦ Nat.lt_irrefl _ (past' _ noted)
    unfold Rig.handedOver
    rw [h.generation, if_neg unnoted, if_neg unnoted']
    exact h.accepted
  | ignored ignored =>
    -- Whichever of the two is handed over, only the note can tell.
    have quiet (r : Rig δ α n) : ∃ note, r.handedOver =
        { r with track := { r.track with captured := note } } := by
      refine handedOver_keeps (P := fun left ↦ ∃ note, left =
        { r with track := { r.track with captured := note } }) ⟨_, rfl⟩
        ⟨some r.track.iterate.generation, ?_⟩
      unfold Rig.accepted
      rw [ignored]
    obtain ⟨note, left⟩ := quiet r
    obtain ⟨note', left'⟩ := quiet r'
    rw [left, left']
    refine ⟨h.store, ?_, .ignored ignored⟩
    rw [h.track]
    rfl

theorem matches_succeed :
    Matches (Renamed ρ) Eq (succeed : Step (Rig δ α n) Unit) succeed := by
  intro r r' h
  rw [succeed_eq, succeed_eq]
  exact .ok rfl h.handedOver

theorem matches_fail : Matches (Renamed ρ) Eq (fail : Step (Rig δ α n) Unit) fail := by
  refine .modify fun r r' h ↦ ⟨?_, h.track, h.notes⟩
  obtain ⟨same, way⟩ := h.store
  rw [same]
  exact ⟨rfl, way⟩

end Rig

end OperatingPoint
