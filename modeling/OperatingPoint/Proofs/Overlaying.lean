import OperatingPoint.Proofs.Equations
import OperatingPoint.Proofs.TrackShifts

/-!
# Laying over the equations, and taking off

What is laid over the equations of a track is known at any time: each change of a track says what is
laid over them afterwards.  And whatever changes the equations takes validity away, so that a
residual which is valid still mirrors them.

Between two solves nothing at all is laid over the equations: the rig is *bare*.
-/

set_option autoImplicit false

namespace OperatingPoint

open Step

/-! ## Names of parameters -/

namespace Parameters

variable {α : Type} {name : String} {value : α}

theorem mem_names_insertInto {entries : List (String × α)} {other : String}
    (h : other ∈ (insertInto name value entries).map Prod.fst) :
    other = name ∨ other ∈ entries.map Prod.fst := by
  induction entries with
  | nil => exact .inl (List.mem_singleton.1 h)
  | cons entry rest ih =>
    unfold insertInto at h
    split at h
    · exact .inr h
    · rw [List.map_cons, List.mem_cons] at h ⊢
      rcases h with same | later
      · exact .inr (.inl same)
      · exact (ih later).imp_right .inr

theorem names_insertInto {entries : List (String × α)} (h : (entries.map Prod.fst).Nodup) :
    ((insertInto name value entries).map Prod.fst).Nodup := by
  induction entries with
  | nil => exact List.nodup_cons.2 ⟨nofun, List.nodup_nil⟩
  | cons entry rest ih =>
    unfold insertInto
    split
    · exact h
    · rename_i other
      rw [List.map_cons, List.nodup_cons] at h ⊢
      refine ⟨fun mem ↦ ?_, ih h.2⟩
      rcases mem_names_insertInto mem with same | later
      · exact other same
      · exact h.1 later

/-- What is left when a name is taken out of names that are all different. -/
theorem mem_names_eraseP {entries : List (String × α)} {other : String}
    (distinct : (entries.map Prod.fst).Nodup)
    (h : other ∈ (entries.eraseP fun entry ↦ entry.1 == name).map Prod.fst) :
    other ∈ entries.map Prod.fst ∧ other ≠ name := by
  induction entries with
  | nil => cases h
  | cons entry rest ih =>
    rw [List.map_cons, List.nodup_cons] at distinct
    by_cases same : entry.1 = name
    · have first : (entry.1 == name) = true := beq_iff_eq.2 same
      rw [List.eraseP_cons, first, cond_true] at h
      refine ⟨List.mem_cons_of_mem _ h, ?_⟩
      rintro rfl
      rw [same] at distinct
      exact distinct.1 h
    · have later : (entry.1 == name) = false := beq_eq_false_iff_ne.2 same
      rw [List.eraseP_cons, later, cond_false, List.map_cons, List.mem_cons] at h
      rcases h with rfl | h
      · exact ⟨.head _, same⟩
      · exact ⟨List.mem_cons_of_mem _ (ih distinct.2 h).1, (ih distinct.2 h).2⟩

theorem get?_eq_none_iff {p : Parameters α} :
    p.get? name = none ↔ name ∉ p.entries.map Prod.fst := by
  rw [get?, List.lookup_eq_none_iff, List.mem_map]
  constructor
  · rintro missing ⟨entry, mem, rfl⟩
    exact absurd (missing entry mem) (by simp)
  · intro missing entry mem
    exact bne_iff_ne.2 fun same ↦ missing ⟨entry, mem, same.symm⟩

end Parameters

/-! ## Changes of a track -/

namespace Track

variable {α : Type} [Scalar α] {n : Nat} {t t' : Track α n}

theorem setParameter_overlay (t : Track α n) (name : String) (value : α) :
    (t.setParameter name value).overlay =
        { t.overlay with parameters := t.overlay.parameters.set name value } ∨
      (t.setParameter name value).overlay = t.overlay ∧
        ∃ old, t.overlay.parameters.get? name = some old ∧ (old == value) = true := by
  unfold setParameter
  split
  · rename_i known
    exact .inr ⟨rfl, (Option.any_eq_true _ _).1 known⟩
  · exact .inl rfl

theorem setForwarding_overlay (t : Track α n) (forwarding : Bool) :
    (t.setForwarding forwarding).overlay = { t.overlay with forwarding := forwarding } := by
  unfold setForwarding
  split
  · rename_i same
    rw [← same]
  · rfl

theorem detach_overlay (t : Track α n) : t.detach.overlay = { t.overlay with strategy := none } := by
  unfold detach
  split
  · rfl
  · rename_i bare
    rw [Bool.not_eq_true, Option.isSome_eq_false_iff, Option.isNone_iff_eq_none] at bare
    rw [← bare]

theorem detachBlend_overlay (t : Track α n) :
    t.detachBlend.overlay = { t.overlay with blend := none } := by
  unfold detachBlend
  split
  · rfl
  · rename_i bare
    rw [Bool.not_eq_true, Option.isSome_eq_false_iff, Option.isNone_iff_eq_none] at bare
    rw [← bare]

theorem attach_overlay {a : Augmentation α} (h : t.attach a = .ok t') :
    t'.overlay = { t.overlay with strategy := some a } := by
  unfold attach at h
  split at h
  · cases h
  · obtain ⟨_, _, same⟩ := bind_eq_ok.1 h
    cases same
    rfl

theorem attach_flags {a : Augmentation α} (h : t.attach a = .ok t') : t'.iterate.flags = {} := by
  unfold attach at h
  split at h
  · cases h
  · obtain ⟨_, _, same⟩ := bind_eq_ok.1 h
    cases same
    rfl

theorem setForwarding_flags (h : t.overlay.forwarding = true) :
    (t.setForwarding false).iterate.flags = {} := by
  unfold setForwarding
  rw [if_neg (by rw [h]; decide)]
  rfl

theorem detach_flags (h : t.overlay.strategy.isSome = true) : t.detach.iterate.flags = {} := by
  unfold detach
  rw [if_pos h]
  rfl

theorem detachBlend_flags (h : t.overlay.blend.isSome = true) :
    t.detachBlend.iterate.flags = {} := by
  unfold detachBlend
  rw [if_pos h]
  rfl

end Track

/-! ## Rigs -/

namespace Rig

variable {δ α : Type} [Scalar α] [DirectSolver α] [Device δ α] {layer : δ} {n : Nat}
  {r : Rig δ α n} {t : Track α n} {S : Option (Augmentation α)} {B : Option (Array α)} {forwarding : Bool}

/-- The rig with another track. -/
def withTrack (r : Rig δ α n) (t : Track α n) : Rig δ α n := { r with track := t }

namespace Lays

theorem setParameter (h : r.Lays layer S B forwarding) (name : String) (value : α) :
    (r.withTrack (r.track.setParameter name value)).Lays layer S B forwarding := by
  have rest : (r.withTrack (r.track.setParameter name value)).AtRest :=
    ⟨h.rest.paired, (r.track.setParameter_shifts name value).rests h.rest.rests⟩
  rcases r.track.setParameter_overlay name value with set | ⟨unchanged, -⟩
  · refine ⟨rest, h.holds, ?_, ?_, ?_, ?_⟩
    all_goals rw [withTrack, set]
    · exact Parameters.names_insertInto h.names
    · exact h.strategy
    · exact h.blend
    · exact h.forwarding
  · refine ⟨rest, h.holds, ?_, ?_, ?_, ?_⟩
    all_goals rw [withTrack, unchanged]
    · exact h.names
    · exact h.strategy
    · exact h.blend
    · exact h.forwarding

/-- A parameter may be set to its start for each of some sweeps. -/
theorem setStarts (h : r.Lays layer S B forwarding) (sweeps : List (Sweep α)) :
    (r.withTrack (sweeps.foldl (fun t sweep ↦ t.setParameter sweep.name sweep.start)
      r.track)).Lays layer S B forwarding := by
  induction sweeps generalizing r with
  | nil => exact h
  | cons sweep rest ih => exact ih (h.setParameter sweep.name sweep.start)

theorem removeParameter (h : r.Lays layer S B forwarding) (name : String) :
    (r.withTrack (r.track.removeParameter name)).Lays layer S B forwarding := by
  have rest : (r.withTrack (r.track.removeParameter name)).AtRest :=
    ⟨h.rest.paired, (r.track.removeParameter_shifts name).rests h.rest.rests⟩
  unfold Track.removeParameter at rest ⊢
  split
  · rename_i known
    rw [if_pos known] at rest
    have fewer : (r.track.overlay.parameters.remove name).entries.Sublist
        r.track.overlay.parameters.entries := List.eraseP_sublist
    exact ⟨rest, h.holds, h.names.sublist (fewer.map Prod.fst), h.strategy, h.blend, h.forwarding⟩
  · exact h

theorem setForwarding (h : r.Lays layer S B forwarding) (forwarding' : Bool) :
    (r.withTrack (r.track.setForwarding forwarding')).Lays layer S B forwarding' := by
  refine ⟨⟨h.rest.paired, (r.track.setForwarding_shifts forwarding').rests h.rest.rests⟩,
    h.holds, ?_, ?_, ?_, ?_⟩
  all_goals rw [withTrack, Track.setForwarding_overlay]
  · exact h.names
  · exact h.strategy
  · exact h.blend

theorem attach (h : r.Lays layer S B forwarding) {a : Augmentation α} (attached : r.track.attach a = .ok t) :
    (r.withTrack t).Lays layer (some a.frame) B forwarding := by
  refine ⟨⟨h.rest.paired, (Track.attach_shifts attached).rests h.rest.rests⟩, h.holds, ?_, ?_, ?_, ?_⟩
  all_goals rw [withTrack, Track.attach_overlay attached]
  · exact h.names
  · rfl
  · exact h.blend
  · exact h.forwarding

theorem detach (h : r.Lays layer S B forwarding) : (r.withTrack r.track.detach).Lays layer none B forwarding := by
  refine ⟨⟨h.rest.paired, r.track.detach_shifts.rests h.rest.rests⟩, h.holds, ?_, ?_, ?_, ?_⟩
  all_goals rw [withTrack, Track.detach_overlay]
  · exact h.names
  · rfl
  · exact h.blend
  · exact h.forwarding

theorem attachBlend (h : r.Lays layer S B forwarding) (b : Blend α) :
    (r.withTrack (r.track.attachBlend b)).Lays layer S (some b.start) forwarding :=
  ⟨⟨h.rest.paired, .of_fresh rfl⟩, h.holds, h.names, h.strategy, rfl, h.forwarding⟩

theorem detachBlend (h : r.Lays layer S B forwarding) :
    (r.withTrack r.track.detachBlend).Lays layer S none forwarding := by
  refine ⟨⟨h.rest.paired, r.track.detachBlend_shifts.rests h.rest.rests⟩, h.holds, ?_, ?_, ?_, ?_⟩
  all_goals rw [withTrack, Track.detachBlend_overlay]
  · exact h.names
  · exact h.strategy
  · rfl
  · exact h.forwarding

theorem isSome_strategy {a : Augmentation α} (h : r.Lays layer (some a) B forwarding) :
    r.track.overlay.strategy.isSome = true := by
  have same := congrArg Option.isSome h.strategy
  rw [Option.isSome_map] at same
  exact same

theorem isSome_blend {start : Array α} (h : r.Lays layer S (some start) forwarding) :
    r.track.overlay.blend.isSome = true := by
  have same := congrArg Option.isSome h.blend
  rw [Option.isSome_map] at same
  exact same

end Lays

omit [Device δ α] in
theorem not_isValid_of_fresh (h : r.track.iterate.flags = {}) (q : Quantity) :
    r.isValid q = false := by
  refine Bool.eq_false_iff.2 (Iterate.not_isValid_of_stale ?_)
  rw [h]
  cases q <;> rfl

variable {P : PureDevice δ α}

/-- A shift takes the iterate, the device layer and its equations along. -/
theorem equations_of_shifts (shifts : r.track.Shifts t) :
    (r.withTrack t).equations P = r.equations P := by
  rw [equations, equations, withTrack, shifts.x]

theorem Mirrors.of_shifts (h : r.Mirrors P) (shifts : r.track.Shifts t)
    (settled : t.overlay.Settled) : (r.withTrack t).Mirrors P := by
  rcases shifts.stale with rfl | stale
  · exact h
  · exact .of_invalid settled (not_isValid_of_fresh stale _)

theorem Mirrors.setParameter (h : r.Mirrors P) (name : String) (value : α) :
    (r.withTrack (r.track.setParameter name value)).Mirrors P := by
  refine h.of_shifts (r.track.setParameter_shifts name value) ?_
  rcases r.track.setParameter_overlay name value with set | ⟨unchanged, -⟩
  · rw [set]
    exact h.settled
  · rw [unchanged]
    exact h.settled

theorem Mirrors.setStarts (h : r.Mirrors P) (sweeps : List (Sweep α)) :
    (r.withTrack (sweeps.foldl (fun t sweep ↦ t.setParameter sweep.name sweep.start)
      r.track)).Mirrors P := by
  induction sweeps generalizing r with
  | nil => exact h
  | cons sweep rest ih => exact ih (h.setParameter sweep.name sweep.start)

theorem Mirrors.setForwarding (h : r.Mirrors P) (forwarding : Bool) :
    (r.withTrack (r.track.setForwarding forwarding)).Mirrors P := by
  refine h.of_shifts (r.track.setForwarding_shifts forwarding) ?_
  rw [Track.setForwarding_overlay]
  exact h.settled

/-- What is laid over the equations stays there through a stepper. -/
theorem keepsSteps_lays : KeepsSteps (Lays (n := n) layer S B forwarding) fun _ ↦ True where
  toKeeps := keeps_lays
  parameter h name value := h.setParameter name value
  accept h := ⟨⟨h.rest.paired, h.rest.rests⟩, .accept h.holds _, h.names, h.strategy, h.blend,
    h.forwarding⟩
  abandon h := ⟨⟨h.rest.paired, h.rest.rests⟩, .abandon h.holds, h.names, h.strategy, h.blend,
    h.forwarding⟩

theorem keepsMarch_lays : KeepsMarch (Lays (n := n) layer S B forwarding) fun _ ↦ True where
  toKeeps := keeps_lays
  pseudo {r} h p p' there frame := by
    refine ⟨⟨h.rest.paired, Track.putPseudoTime_rests h.rest.rests _⟩, h.holds, h.names, ?_, h.blend,
      h.forwarding⟩
    rw [← h.strategy, Track.strategy_of_pseudoTime? there]
    exact congrArg some frame

/-- A stepper keeps the residual what it is said to be. -/
theorem keepsSteps_mirrors (P : PureDevice δ α) (firm : ∀ a, S = some a → a.Steadfast layer n) :
    KeepsSteps (fun r : Rig δ α n ↦ r.Lays layer S B forwarding ∧ r.Mirrors P) fun _ ↦ True where
  toKeeps := keeps_mirrors P firm
  parameter h name value := ⟨h.1.setParameter name value, h.2.setParameter name value⟩
  accept {r} h := by
    refine ⟨keepsSteps_lays.accept h.1, h.2.of_same rfl ?_ rfl rfl fun valid ↦ valid⟩
    show P.residual (P.view (Device.accept ..)) _ _ = _
    rw [P.accept_view]
    rfl
  abandon {r} h := by
    refine ⟨keepsSteps_lays.abandon h.1, h.2.of_same rfl ?_ rfl rfl fun valid ↦ valid⟩
    show P.residual (P.view (Device.abandon _)) _ _ = _
    rw [P.abandon_view]
    rfl

end Rig

end OperatingPoint
