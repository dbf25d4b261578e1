import OperatingPoint.Proofs.BenchStops

/-!
# Validity of sets of quantities

An iterate owns a set of quantities if it owns each of them.  Whether a set is valid goes by the
flag of its only member, if there is just one, and by that of the residual otherwise: a set of
several is valid as soon as the residual's flag is up and all of it is owned, whatever the other
flags say.  So it may be valid where a member is stale.

That the members of a set are valid and the set is not is rarer.  A quantity that comes from a
Jacobian outlives the residual only where the residual was another iterate's and could not be
computed again: `Track.Orderly`.
-/

set_option autoImplicit false

namespace OperatingPoint

open Step

namespace QuantitySet

/-- A set with just one member. -/
def Single (qs : QuantitySet) : Prop := ∃ q : Quantity, qs = q

theorem only?_eq_some_iff {qs : QuantitySet} {q : Quantity} : qs.only? = some q ↔ qs = q := by
  have members : qs.toList = [q] → qs = q := by
    intro one
    obtain ⟨contains⟩ := qs
    have same : contains = fun q' ↦ decide (q' ∈ [q]) := by
      funext q'
      rw [Bool.eq_iff_iff, decide_eq_true_eq, ← one]
      exact mem_toList.symm
    rw [same]
    rfl
  constructor
  · intro only
    unfold only? at only
    split at only
    · rename_i one
      cases only
      exact members one
    · cases only
  · rintro rfl
    cases q <;> rfl

theorem only?_eq_none_iff {qs : QuantitySet} : qs.only? = none ↔ ¬qs.Single := by
  rw [Option.eq_none_iff_forall_ne_some]
  exact ⟨fun none ⟨q, one⟩ ↦ none q (only?_eq_some_iff.2 one),
    fun several q only ↦ several ⟨q, only?_eq_some_iff.1 only⟩⟩

@[simp] theorem contains_coe {q q' : Quantity} :
    (q : QuantitySet).contains q' = true ↔ q' = q := by
  rw [contains_ofList, List.mem_singleton]

end QuantitySet

/-! ## Sets and their members -/

section

variable {δ α : Type} [DirectSolver α] {n : Nat} {s : Store δ α n} {it : Iterate α n}
  {qs : QuantitySet}

theorem Store.owns_iff_forall {id : OwnerId} :
    s.owns id qs = true ↔ ∀ q, qs.contains q = true → s.owns id (q : QuantitySet) = true := by
  rw [Store.owns, List.all_eq_true]
  refine forall_congr' fun q ↦ ?_
  rw [QuantitySet.mem_toList, Store.owns_iff, beq_iff_eq]

theorem Iterate.isValid_of_several (several : ¬qs.Single) :
    it.isValid s qs = true ↔ it.flags.residual = .valid ∧
      ∀ q, qs.contains q = true → s.owns it.id (q : QuantitySet) = true := by
  have flag : it.flag qs = it.flags.residual := by
    rw [Iterate.flag, QuantitySet.only?_eq_none_iff.2 several]
  rw [Iterate.isValid, Bool.and_eq_true, beq_iff_eq, flag, Store.owns_iff_forall]

/-- The set of one quantity is valid if the quantity is. -/
theorem Iterate.isValid_of_single (single : qs.Single) :
    it.isValid s qs = true ↔
      ∀ q, qs.contains q = true → it.isValid s (q : QuantitySet) = true := by
  obtain ⟨q, rfl⟩ := single
  refine ⟨fun valid q' member ↦ ?_, fun all ↦ all q (QuantitySet.contains_coe.2 rfl)⟩
  rw [QuantitySet.contains_coe.1 member]
  exact valid

end

/-! ## Flags between commands -/

section

variable {α : Type} [Scalar α] {n : Nat}

/-- Nothing of a track is being computed; and if some flag is up but that of the residual, and
nothing laid over the equations can have stopped a load, then the residual could not be loaded. -/
structure Track.Orderly (t : Track α n) : Prop where
  rests : ∀ q, t.iterate.flags.of q ≠ .computing
  failed : (∃ q, t.iterate.flags.of q = .valid) → t.iterate.flags.residual ≠ .valid →
    t.overlay.forwarding = false → t.overlay.Fits n → t.iterate.measured = .failed

namespace Track.Orderly

variable {t t' : Track α n}

theorem of_fresh (fresh : t.iterate.flags = {}) : t.Orderly := by
  have stale (q : Quantity) : t.iterate.flags.of q = .stale := by
    rw [fresh]
    cases q <;> rfl
  refine ⟨fun q ↦ by rw [stale]; exact nofun, ?_⟩
  rintro ⟨q, up⟩
  rw [stale] at up
  cases up

theorem of_residual (rests : ∀ q, t.iterate.flags.of q ≠ .computing)
    (valid : t.iterate.flags.residual = .valid) : t.Orderly :=
  ⟨rests, fun _ invalid ↦ absurd valid invalid⟩

/-- What matters is the flags, the measure and what is laid over. -/
theorem of_same (h : t.Orderly) (flags : t'.iterate.flags = t.iterate.flags)
    (measured : t'.iterate.measured = t.iterate.measured) (overlay : t'.overlay = t.overlay) :
    t'.Orderly := by
  refine ⟨fun q ↦ ?_, ?_⟩
  · rw [flags]
    exact h.rests q
  · rw [flags, measured, overlay]
    exact h.failed

theorem shift (h : t.Orderly) (shifts : t.Shifts t') : t'.Orderly := by
  obtain rfl | fresh := shifts.stale
  · exact h
  · exact of_fresh fresh

/-- Nothing is left that has come from a Jacobian. -/
theorem derivatives (h : t.Orderly)
    (flags : t'.iterate.flags = { residual := t.iterate.flags.residual }) : t'.Orderly := by
  have up (q : Quantity) : t'.iterate.flags.of q = t.iterate.flags.residual ∨
      t'.iterate.flags.of q = .stale := by
    rw [flags]
    cases q <;> first | exact .inl rfl | exact .inr rfl
  refine ⟨fun q ↦ ?_, ?_⟩
  · obtain same | stale := up q
    · rw [same]
      exact h.rests .residual
    · rw [stale]
      exact nofun
  · rintro ⟨q, valid⟩ invalid
    obtain same | stale := up q
    · rw [flags] at invalid
      exact absurd (same.symm.trans valid) invalid
    · rw [stale] at valid
      cases valid

end Track.Orderly

end

variable {δ α : Type} [Scalar α] [DirectSolver α] [Device δ α] {n : Nat}

namespace Rig

variable {r : Rig δ α n}

/-- Computing the residual of a track leaves it orderly, even if the residual has been given up. -/
theorem computeResidual_orderly (rests : ∀ q, r.track.iterate.flags.of q ≠ .computing)
    (known : r.isValid .residual = true → r.track.Orderly) :
    Ends computeResidual r (fun _ r' ↦ r'.track.Orderly) (fun _ r' ↦ r'.track.Orderly) := by
  have without (q : Quantity) : (withoutResidual r.track.iterate).flags.of q ≠ .computing := by
    cases q with
    | residual | auxState => exact nofun
    | jacobian => exact rests .jacobian
    | newton => exact rests .newton
    | gradient => exact rests .gradient
  have forwarded := forward_alike r.computing
  refine .of_result (computeResidual_run r) ?_ ?_
  · intro ok r' run
    cases run with
    | known valid => exact known valid
    | unloaded => exact ⟨without, fun _ _ _ _ ↦ rfl⟩
    | loaded => exact .of_residual (fun q ↦ by cases q <;> exact nofun) rfl
  · intro e r' run
    cases run with
    | reentered _ busy => exact absurd busy (rests .residual)
    | refused _ run =>
      refine ⟨without, fun _ _ off _ ↦ ?_⟩
      have on := ((ends_forward r.computing).error run).1
      have same := (forwarded.error run).forwarding
      exact absurd (off.symm.trans (same.trans on)) Bool.false_ne_true
    | stuck _ run _ _ augmented =>
      refine ⟨without, fun _ _ _ fits ↦ ?_⟩
      exact (Overlay.augmentResidual_stops (Q := fun _ ↦ False) (fun unfit ↦ unfit fits) _ _ _
        augmented).elim

theorem computeResidual_of_orderly (h : r.track.Orderly) :
    Ends computeResidual r (fun _ r' ↦ r'.track.Orderly) (fun _ r' ↦ r'.track.Orderly) :=
  computeResidual_orderly h.rests fun _ ↦ h

theorem computeJacobian_orderly (h : r.track.Orderly) :
    Ends computeJacobian r (fun _ r' ↦ r'.track.Orderly) (fun _ r' ↦ r'.track.Orderly) := by
  have renewed : Ends computeResidual r.outdated (fun _ r' ↦ r'.track.Orderly)
      (fun _ r' ↦ r'.track.Orderly) := by
    refine computeResidual_orderly (fun q ↦ ?_) fun valid ↦ ?_
    · cases q with
      | residual | auxState => exact nofun
      | jacobian => exact h.rests .jacobian
      | newton => exact h.rests .newton
      | gradient => exact h.rests .gradient
    · cases (isValid_iff.1 valid).1
  -- A Jacobian is loaded with the residual there.
  have loaded {r' : Rig δ α n} (base : Refreshed r r') {s : Store δ α n} {flag : Validity}
      {o : Overlay α} (still : flag ≠ .computing) :
      (r'.put s { r'.track.iterate with
        flags := { residual := r'.track.iterate.flags.residual, jacobian := flag } }
        o).track.Orderly := by
    have up : r'.track.iterate.flags.residual = .valid := (isValid_iff.1 base.spec.1).1
    refine .of_residual (fun q ↦ ?_) up
    cases q with
    | residual | auxState =>
      show r'.track.iterate.flags.residual ≠ .computing
      rw [up]
      exact nofun
    | jacobian => exact still
    | newton | gradient => exact nofun
  refine .of_result (computeJacobian_run r) ?_ ?_
  · intro ok r' run
    cases run with
    | known => exact h
    | unrefreshed _ _ run => exact renewed.ok run
    | unloaded _ base => exact loaded base nofun
    | loaded _ base => exact loaded base nofun
  · intro e r' run
    cases run with
    | reentered => exact h
    | refused _ _ run => exact renewed.error run
    | stuck _ base => exact loaded base nofun

omit [Device δ α] in
theorem computeNewton_orderly (h : r.track.Orderly) (mayReuse : Bool) :
    Ends (computeNewton mayReuse) r (fun _ r' ↦ r'.track.Orderly)
      (fun _ r' ↦ r'.track.Orderly) := by
  have solved {s : Store δ α n} {flag : Validity} (ready : r.isValid .residual = true)
      (still : flag ≠ .computing) :
      (r.put s (withNewton r.track.iterate flag) r.track.overlay).track.Orderly := by
    refine .of_residual (fun q ↦ ?_) (isValid_iff.1 ready).1
    cases q with
    | residual | auxState => exact h.rests .residual
    | jacobian => exact h.rests .jacobian
    | newton => exact still
    | gradient => exact h.rests .gradient
  refine .of_result (computeNewton_run r mayReuse) ?_ ?_
  · intro ok r' run
    cases run with
    | known => exact h
    | solved _ ready => exact solved ready (by split <;> exact nofun)
    | refused _ ready => exact solved ready nofun
  · intro e r' run
    cases run with
    | noResidual => exact h
    | noJacobian => exact h
    | stopped _ ready => exact solved ready nofun

omit [Device δ α] in
theorem computeGradient_orderly (h : r.track.Orderly) :
    Ends computeGradient r (fun _ r' ↦ r'.track.Orderly) (fun _ r' ↦ r'.track.Orderly) := by
  refine .of_result (computeGradient_run r) ?_ ?_
  · intro _ r' run
    cases run with
    | known => exact h
    | computed _ ready =>
      refine ⟨fun q ↦ ?_, fun _ ↦ h.failed ⟨.jacobian, (isValid_iff.1 ready).1⟩⟩
      cases q with
      | residual | auxState => exact h.rests .residual
      | jacobian => exact h.rests .jacobian
      | newton => exact h.rests .newton
      | gradient => exact nofun
  · intro _ r' run
    cases run with
    | noJacobian => exact h
    | noResidual => exact h

theorem keepsCommands_orderly : KeepsCommands fun r : Rig δ α n ↦ r.AtRest ∧ r.track.Orderly where
  toKeeps := keeps_rest_and (fun _ _ ↦ .of_fresh rfl) (fun _ h ↦ computeResidual_of_orderly h)
    (fun _ h ↦ computeJacobian_orderly h) fun mayReuse _ h ↦ computeNewton_orderly h mayReuse
  parameter h name value := ⟨keepsCommands_rest.parameter h.1 name value,
    h.2.shift (Track.setParameter_shifts _ name value)⟩
  accept h := ⟨keepsCommands_rest.accept h.1, h.2.of_same rfl rfl rfl⟩
  abandon h := ⟨keepsCommands_rest.abandon h.1, h.2⟩
  pseudo h _ _ there same := ⟨keepsCommands_rest.pseudo h.1 there same, h.2.derivatives rfl⟩
  shift h _ shifts := ⟨keepsCommands_rest.shift h.1 shifts, h.2.shift shifts⟩
  derivatives h := ⟨keepsCommands_rest.derivatives h.1, h.2.derivatives rfl⟩
  gradient r h := (keepsCommands_rest.gradient r h.1).and (computeGradient_orderly h.2)
  give h name value := ⟨keepsCommands_rest.give h.1 name value, h.2⟩

end Rig

/-! ## Sets of any track of a bench -/

namespace Bench

/-- Every track is at rest, and its flags are in order. -/
structure Orderly (b : Bench δ α n) : Prop where
  rest : b.AtRest
  tracks : ∀ k t, b.Live k t → t.Orderly

omit [Device δ α] in
/-- A track comes up that is orderly. -/
theorem Orderly.push {b : Bench δ α n} {t : Track α n} (h : b.Orderly) {s : Store δ α n}
    (rest : AtRest { b with store := s, tracks := b.tracks.push (some t) }) (orderly : t.Orderly) :
    Orderly { b with store := s, tracks := b.tracks.push (some t) } := by
  refine ⟨rest, fun k' t' live ↦ ?_⟩
  obtain ⟨_, rfl⟩ | old := live_push live
  · exact orderly
  · exact h.tracks k' t' old

theorem keepsTracks_orderly : KeepsTracks (Orderly (δ := δ) (α := α) (n := n)) where
  track h k t _ live := by
    refine ⟨_, ⟨h.rest.rig live, h.tracks k t live⟩, Rig.keepsCommands_orderly, fun e kept ↦ ?_⟩
    refine ⟨h.rest.withEngine kept.1, fun k' t' live' ↦ ?_⟩
    obtain ⟨_, same⟩ | ⟨_, old⟩ := live_replace live'
    · cases same
      exact kept.2
    · exact h.tracks k' t' old
  beside h _ _ := ⟨keepsTracks_rest.beside h.rest _ _, h.tracks⟩
  add h x overlay bare := h.push (keepsTracks_rest.add h.rest x overlay bare) (.of_fresh rfl)
  copy h k t live := h.push (h.rest.copy live) ((h.tracks k t live).of_same rfl rfl rfl)
  retire h k t live :=
    ⟨h.rest.retire k t.iterate.id, fun k' t' live' ↦ h.tracks k' t' (live_of_retired live').2⟩
  setPrevious h x := ⟨keepsTracks_rest.setPrevious h.rest x, h.tracks⟩

theorem run_orderly (device : δ) (communicator : Communicator α) (linear : LinearOptions α)
    (newton : Newton α) (history : List (Request α n)) :
    (run (empty device communicator linear newton n) history).Orderly :=
  run_preserves ⟨empty_rests device communicator linear newton, fun _ _ live ↦ by cases live⟩
    fun request _ ↦ keepsTracks_orderly.preserves_perform request.2

/-- **Validity of sets.**  After any history of a bench, let a set of quantities that is not empty
be asked of one of its tracks.  The track owns the set if and only if it owns each member.  A set of
one quantity is valid if and only if the quantity is; a set of several is valid if and only if the
flag of the residual is up and each member is owned.

So a set of several may be valid and not all its members: one that is not the residual may be stale,
though owned.  That all members of a set are valid and the set is not takes a set without the
residual and a residual that is stale; unless something laid over the equations can have stopped its
load, that load has failed. -/
theorem validity_of_sets (device : δ) (communicator : Communicator α) (linear : LinearOptions α)
    (newton : Newton α) (history : List (Request α n)) :
    let b := run (empty device communicator linear newton n) history
    ∀ k t, b.Live k t → ∀ qs : QuantitySet, (∃ q, qs.contains q = true) →
      let it := t.iterate
      let owned := ∀ q, qs.contains q = true → b.store.owns it.id (q : QuantitySet) = true
      let valid := ∀ q, qs.contains q = true → it.isValid b.store (q : QuantitySet) = true
      (b.store.owns it.id qs = true ↔ owned) ∧
      (qs.Single → (it.isValid b.store qs = true ↔ valid)) ∧
      (¬qs.Single → (it.isValid b.store qs = true ↔ it.flags.residual = .valid ∧ owned)) ∧
      (it.isValid b.store qs = true → ∀ q, qs.contains q = true →
        it.isValid b.store (q : QuantitySet) = true ∨
          (¬qs.Single ∧ q ≠ .residual ∧ it.flags.of q = .stale)) ∧
      (valid → it.isValid b.store qs = true ∨
        (¬qs.Single ∧ qs.contains .residual = false ∧ it.flags.residual = .stale ∧
          (t.overlay.forwarding = false → t.overlay.Fits n → it.measured = .failed))) := by
  intro b k t live qs nonempty it owned valid
  have orderly := (run_orderly device communicator linear newton history).tracks k t live
  have stale {q : Quantity} (invalid : it.flags.of q ≠ .valid) : it.flags.of q = .stale := by
    cases flag : it.flags.of q with
    | stale => rfl
    | computing => exact absurd flag (orderly.rests q)
    | valid => exact absurd flag invalid
  have flagged (all : valid) (q : Quantity) (member : qs.contains q = true) :
      it.flags.of q = .valid := (Iterate.isValid_iff.1 (all q member)).1
  have ownedOf (all : valid) : owned := fun q member ↦
    Store.owns_iff.2 (Iterate.isValid_iff.1 (all q member)).2
  refine ⟨Store.owns_iff_forall, Iterate.isValid_of_single, Iterate.isValid_of_several,
    fun up q member ↦ ?_, fun all ↦ ?_⟩
  · by_cases single : qs.Single
    · exact .inl ((Iterate.isValid_of_single single).1 up q member)
    · obtain ⟨residual, owned⟩ := (Iterate.isValid_of_several single).1 up
      by_cases flag : it.flags.of q = .valid
      · exact .inl (Iterate.isValid_iff.2 ⟨flag, Store.owns_iff.1 (owned q member)⟩)
      · refine .inr ⟨single, ?_, stale flag⟩
        rintro rfl
        exact flag residual
  · by_cases single : qs.Single
    · exact .inl ((Iterate.isValid_of_single single).2 all)
    · by_cases residual : it.flags.residual = .valid
      · exact .inl ((Iterate.isValid_of_several single).2 ⟨residual, ownedOf all⟩)
      · obtain ⟨q, member⟩ := nonempty
        refine .inr ⟨single, ?_, stale (q := .residual) residual,
          orderly.failed ⟨q, flagged all q member⟩ residual⟩
        exact Bool.eq_false_iff.2 fun there ↦ residual (flagged all .residual there)

/-- A track has its Jacobian, moves and computes its residual.  The Jacobian is stale, and together
with the residual it is valid. -/
theorem validity_of_sets_bare :
    let history : List (Request Float 1) := [⟨_, .add #[0.0]⟩, ⟨_, .computeJacobian 0⟩,
      ⟨_, .setX 0 #[1.0]⟩, ⟨_, .computeResidual 0⟩]
    let newton : Newton Float := { battery := .new .serial .standard {} false }
    let b := run (empty Circuit.bare .serial .standard newton 1) history
    let both := QuantitySet.ofList [.residual, .jacobian]
    ∃ t, b.Live 0 t ∧ t.iterate.isValid b.store both = true ∧
      t.iterate.isValid b.store Quantity.jacobian = false ∧
      t.iterate.flags.jacobian = .stale := by
  intro history newton b both
  have there : (b.tracks[0]?.join.map fun t ↦ (t.iterate.isValid b.store both,
      t.iterate.isValid b.store Quantity.jacobian)) = some (true, false) := by decide +kernel
  obtain ⟨t, live, answers⟩ := Option.map_eq_some_iff.1 there
  have live : b.Live 0 t := Option.join_eq_some_iff.1 live
  have valid : t.iterate.isValid b.store both = true := congrArg Prod.fst answers
  have invalid : t.iterate.isValid b.store Quantity.jacobian = false := congrArg Prod.snd answers
  have member := (validity_of_sets Circuit.bare .serial .standard newton history 0 t live both
    ⟨.residual, by decide⟩).2.2.2.1 valid .jacobian (by decide)
  refine ⟨t, live, valid, invalid, (member.resolve_left fun up ↦ ?_).2.2⟩
  cases invalid.symm.trans up

end Bench

end OperatingPoint
