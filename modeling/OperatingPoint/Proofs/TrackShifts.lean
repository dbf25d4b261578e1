import OperatingPoint.Proofs.Resting

/-!
# Shifts of a track

Whatever changes the equations of a track makes everything stale that was computed at it, and leaves
the iterate where it is.  A change that turns out to be none leaves the track as it is.  This is
`Track.Shifts`; all the ways to set up a track are of this kind.  All but one attach no strategy, and
that is `Track.Adjusts`.
-/

set_option autoImplicit false

namespace OperatingPoint

namespace Track

variable {α : Type} [Scalar α] {n : Nat} {t t' t'' : Track α n}

/-- From a track to one with other equations and nothing computed, or to itself. -/
structure Shifts (t t' : Track α n) : Prop where
  id : t'.iterate.id = t.iterate.id
  x : t'.iterate.x = t.iterate.x
  captured : t'.captured = t.captured
  generation : t.iterate.generation ≤ t'.iterate.generation
  stale : t' = t ∨ t'.iterate.flags = {}

namespace Shifts

theorem refl (t : Track α n) : t.Shifts t := ⟨rfl, rfl, rfl, Nat.le_refl _, .inl rfl⟩

theorem trans (h : t.Shifts t') (h' : t'.Shifts t'') : t.Shifts t'' where
  id := h'.id.trans h.id
  x := h'.x.trans h.x
  captured := h'.captured.trans h.captured
  generation := Nat.le_trans h.generation h'.generation
  stale := by
    rcases h'.stale with rfl | stale
    · exact h.stale
    · exact .inr stale

theorem of_invalidate (h : t'.iterate = t.iterate.invalidate)
    (captured : t'.captured = t.captured) : t.Shifts t' := by
  refine ⟨?_, ?_, captured, ?_, .inr ?_⟩
  all_goals rw [h]
  · rfl
  · rfl
  · exact Nat.le_succ _
  · rfl

/-- Where nothing was computed, nothing is computed afterwards. -/
theorem fresh (h : t.Shifts t') (fresh : t.iterate.flags = {}) : t'.iterate.flags = {} := by
  rcases h.stale with rfl | stale
  · exact fresh
  · exact stale

theorem rests (h : t.Shifts t') (rests : t.iterate.Rests) : t'.iterate.Rests := by
  rcases h.stale with rfl | stale
  · exact rests
  · exact .of_fresh stale

end Shifts

/-- From a track to one with other equations, but without a new strategy, or to itself. -/
structure Adjusts (t t' : Track α n) : Prop extends t.Shifts t' where
  strategy : t'.overlay.strategy = t.overlay.strategy ∨ t'.overlay.strategy = none

namespace Adjusts

theorem refl (t : Track α n) : t.Adjusts t := ⟨.refl t, .inl rfl⟩

theorem of_invalidate (h : t'.iterate = t.iterate.invalidate) (captured : t'.captured = t.captured)
    (strategy : t'.overlay.strategy = t.overlay.strategy ∨ t'.overlay.strategy = none) :
    t.Adjusts t' := ⟨.of_invalidate h captured, strategy⟩

end Adjusts

theorem removeParameter_adjusts (t : Track α n) (name : String) :
    t.Adjusts (t.removeParameter name) := by
  unfold removeParameter
  split
  · exact .of_invalidate rfl rfl (.inl rfl)
  · exact .refl t

theorem setForwarding_adjusts (t : Track α n) (forwarding : Bool) :
    t.Adjusts (t.setForwarding forwarding) := by
  unfold setForwarding
  split
  · exact .refl t
  · exact .of_invalidate rfl rfl (.inl rfl)

theorem detach_adjusts (t : Track α n) : t.Adjusts t.detach := by
  unfold detach
  split
  · exact .of_invalidate rfl rfl (.inr rfl)
  · exact .refl t

theorem detachBlend_adjusts (t : Track α n) : t.Adjusts t.detachBlend := by
  unfold detachBlend
  split
  · exact .of_invalidate rfl rfl (.inl rfl)
  · exact .refl t

theorem setParameter_adjusts (t : Track α n) (name : String) (value : α) :
    t.Adjusts (t.setParameter name value) := by
  unfold setParameter
  split
  · exact .refl t
  · exact .of_invalidate rfl rfl (.inl rfl)

theorem removeParameter_shifts (t : Track α n) (name : String) :
    t.Shifts (t.removeParameter name) := (t.removeParameter_adjusts name).toShifts

theorem setForwarding_shifts (t : Track α n) (forwarding : Bool) :
    t.Shifts (t.setForwarding forwarding) := (t.setForwarding_adjusts forwarding).toShifts

theorem detach_shifts (t : Track α n) : t.Shifts t.detach := t.detach_adjusts.toShifts

theorem detachBlend_shifts (t : Track α n) : t.Shifts t.detachBlend :=
  t.detachBlend_adjusts.toShifts

theorem setParameter_shifts (t : Track α n) (name : String) (value : α) :
    t.Shifts (t.setParameter name value) := (t.setParameter_adjusts name value).toShifts

theorem attach_shifts {a : Augmentation α} (h : t.attach a = .ok t') : t.Shifts t' := by
  unfold attach at h
  split at h
  · cases h
  · obtain ⟨_, _, same⟩ := bind_eq_ok.1 h
    cases same
    exact .of_invalidate rfl rfl

/-- Whoever has a step in pseudo-time has it for a strategy. -/
theorem strategy_of_pseudoTime? {p : PseudoTime α} (there : t.pseudoTime? = .ok p) :
    t.overlay.strategy = some (.pseudoTransient p) := by
  unfold pseudoTime? at there
  split at there
  · rename_i a attached
    rw [attached]
    cases a <;> cases there
    rfl
  · cases there

/-- A change of the step in pseudo-time computes nothing. -/
theorem putPseudoTime_rests (h : t.iterate.Rests) (p : PseudoTime α) :
    (t.putPseudoTime p).iterate.Rests :=
  ⟨h.residual, nofun⟩

end Track

end OperatingPoint
