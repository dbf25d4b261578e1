import OperatingPoint.Circuit
import OperatingPoint.Linear.FullPivot
import OperatingPoint.Proofs.BenchCommands

/-!
# How the Newton driver of a bench stops

Between two commands of any history no quantity of any track is being computed, and the owner of the
residual is that of the auxiliary state.  So what stops a Newton driver at a rig is all that stops
it on a bench, whatever the other tracks have done in the meantime.
-/

set_option autoImplicit false

namespace OperatingPoint

open Step

variable {δ α : Type} [Scalar α] [DirectSolver α] {n : Nat}

/-! ## Steps of a track on a bench -/

namespace Bench

/-- No quantity of any track is being computed. -/
structure AtRest (b : Bench δ α n) : Prop where
  paired : b.store.Paired
  tracks : ∀ k t, b.Live k t → t.iterate.Rests

namespace AtRest

variable {b : Bench δ α n} {k : Nat} {t : Track α n}

theorem rig (h : b.AtRest) (live : b.Live k t) : Rig.AtRest ⟨b.store, t⟩ :=
  ⟨h.paired, h.tracks k t live⟩

/-- A track does something that leaves its rig at rest. -/
theorem withEngine (h : b.AtRest) {e : Engine δ α n} (rest : e.rig.AtRest) :
    (b.withEngine k e).AtRest := by
  refine ⟨rest.paired, fun k' t' live ↦ ?_⟩
  rcases live_replace live with ⟨_, same⟩ | ⟨_, old⟩
  · cases same
    exact rest.rests
  · exact h.tracks k' t' old

/-- A track comes up. -/
theorem push (h : b.AtRest) {s : Store δ α n} (paired : s.Paired) (rests : t.iterate.Rests) :
    AtRest { b with store := s, tracks := b.tracks.push (some t) } := by
  refine ⟨paired, fun k' t' live ↦ ?_⟩
  rcases live_push live with ⟨_, rfl⟩ | old
  · exact rests
  · exact h.tracks k' t' old

theorem copy (h : b.AtRest) (live : b.Live k t) : AtRest { b with
    store := (t.deepClone b.store).2
    tracks := b.tracks.push (some (t.deepClone b.store).1) } :=
  h.push (Store.Paired.transfer (s := b.store.register.2) h.paired _)
    ⟨(h.tracks k t live).residual, (h.tracks k t live).jacobian⟩

theorem retire (h : b.AtRest) (k : Nat) (id : OwnerId) :
    AtRest { b.replace k none with store := b.store.release id } :=
  ⟨h.paired.release, fun k' t' live ↦ h.tracks k' t' (live_of_retired live).2⟩

end AtRest

end Bench

/-! ## Whole programs leave a rig at rest -/

namespace Rig

theorem preserves_rest_computeGradient :
    Preserves (computeGradient (δ := δ) (α := α) (n := n)) AtRest := by
  intro r h
  refine .of_result (computeGradient_run r) ?_ ?_
  · intro _ r' run
    cases run with
    | known => exact h
    | computed =>
      refine ⟨?_, h.rests.residual, h.rests.jacobian⟩
      have pair : r.store.owners.of .auxState = r.store.owners.of .residual := h.paired
      simpa [Store.Paired] using pair
  · intro e r' run
    cases run with
    | noJacobian => exact h
    | noResidual => exact h

variable [Device δ α]

theorem keeps_rest : Keeps (AtRest (δ := δ) (α := α) (n := n)) fun _ ↦ True where
  rest h := h
  move h x := h.move x
  residual h := (computeResidual_stays h).mono (fun _ _ stays ↦ stays.1.rest)
    fun _ _ stays ↦ ⟨trivial, stays.rest⟩
  jacobian h := (computeJacobian_stays h).mono (fun _ _ stays ↦ stays.1.rest)
    fun _ _ stays ↦ ⟨trivial, stays.rest⟩
  newton h _ mayReuse _ := (computeNewton_stays h mayReuse).mono (fun _ _ stays ↦ stays.1.rest)
    fun _ _ stays ↦ ⟨trivial, stays.rest⟩

/-- What the computations and the moves keep, Newton's iteration keeps at a rig at rest. -/
theorem keeps_rest_and {K : Rig δ α n → Prop}
    (move : ∀ {r : Rig δ α n}, K r → ∀ x,
      K (r.put r.store (r.track.iterate.setX x) r.track.overlay))
    (residual : Preserves computeResidual K) (jacobian : Preserves computeJacobian K)
    (newton : ∀ mayReuse, Preserves (computeNewton mayReuse) K) :
    Keeps (fun r ↦ r.AtRest ∧ K r) fun _ ↦ True where
  rest h := h.1
  move h x := ⟨h.1.move x, move h.2 x⟩
  residual h := ((keeps_rest.residual h.1).and (residual _ h.2)).mono (fun _ _ kept ↦ kept)
    fun _ _ kept ↦ ⟨trivial, kept.1.2, kept.2⟩
  jacobian h := ((keeps_rest.jacobian h.1).and (jacobian _ h.2)).mono (fun _ _ kept ↦ kept)
    fun _ _ kept ↦ ⟨trivial, kept.1.2, kept.2⟩
  newton h valid mayReuse ready :=
    ((keeps_rest.newton h.1 valid mayReuse ready).and (newton mayReuse _ h.2)).mono
      (fun _ _ kept ↦ kept) fun _ _ kept ↦ ⟨trivial, kept.1.2, kept.2⟩

theorem keepsSteps_rest : KeepsSteps (AtRest (δ := δ) (α := α) (n := n)) fun _ ↦ True where
  toKeeps := keeps_rest
  parameter h name value := ⟨h.paired, (Track.setParameter_shifts _ name value).rests h.rests⟩
  accept h := ⟨h.paired, h.rests⟩
  abandon h := ⟨h.paired, h.rests⟩

theorem keepsMarch_rest : KeepsMarch (AtRest (δ := δ) (α := α) (n := n)) fun _ ↦ True where
  toKeeps := keeps_rest
  pseudo h _ _ _ _ := ⟨h.paired, Track.putPseudoTime_rests h.rests _⟩

/-- Whatever a command does to a track leaves its rig at rest. -/
theorem keepsCommands_rest : KeepsCommands (AtRest (δ := δ) (α := α) (n := n)) where
  toKeepsSteps := keepsSteps_rest
  pseudo := keepsMarch_rest.pseudo
  shift h _ shifts := ⟨h.paired, shifts.rests h.rests⟩
  derivatives h := ⟨h.paired, h.rests.residual, nofun⟩
  gradient := preserves_rest_computeGradient
  give h _ _ := ⟨h.paired, h.rests⟩

end Rig

namespace Bench

variable [Device δ α]

theorem keepsTracks_rest : KeepsTracks (AtRest (δ := δ) (α := α) (n := n)) where
  track h _ _ _ live := ⟨Rig.AtRest, h.rig live, Rig.keepsCommands_rest,
    fun _ rest ↦ h.withEngine rest⟩
  beside h _ _ := ⟨h.paired, h.tracks⟩
  add h _ _ _ := h.push h.paired (.of_fresh rfl)
  copy h _ _ live := h.copy live
  retire h k t _ := h.retire k t.iterate.id
  setPrevious h x := ⟨.setPrevious x, h.tracks⟩

omit [Device δ α] in
theorem empty_rests (device : δ) (communicator : Communicator α) (linear : LinearOptions α)
    (newton : Newton α) : (empty device communicator linear newton n).AtRest where
  paired := rfl
  tracks k t live := by cases live

theorem run_rests (device : δ) (communicator : Communicator α) (linear : LinearOptions α)
    (newton : Newton α) (history : List (Request α n)) :
    (run (empty device communicator linear newton n) history).AtRest :=
  run_preserves (empty_rests device communicator linear newton)
    fun request _ ↦ keepsTracks_rest.preserves_perform request.2

/-- **Numerical trouble is a verdict.**  Whatever the device layer does, and whatever the history of
the bench has been: a beginning and a whole solve stop only for a parameter that finds no taker, for
an overlay on unknowns that are not there, and for a solver that cannot hold its cycle.  So does an
iteration, except where the iterate is uprooted; there it stops for want of a Jacobian. -/
theorem newton_stops_of_history (device : δ) (communicator : Communicator α)
    (linear : LinearOptions α) (newton : Newton α) (history : List (Request α n)) :
    let b := run (empty device communicator linear newton n) history
    ∀ k t, b.Live k t →
      Ends (perform (.begin k)) b (fun _ _ ↦ True) (fun stop _ ↦ stop.OfNewton (b.engine t).rig) ∧
      Ends (perform (.solve k)) b (fun _ _ ↦ True) (fun stop _ ↦ stop.OfNewton (b.engine t).rig) ∧
      Ends (perform (.advance k)) b (fun _ _ ↦ ¬ (b.engine t).Uprooted)
        (fun stop _ ↦ ((b.engine t).Uprooted → stop = .missingJacobian) ∧
          (¬ (b.engine t).Uprooted → stop.OfNewton (b.engine t).rig)) := by
  intro b k t live
  have rest : (b.engine t).rig.AtRest :=
    (run_rests device communicator linear newton history).rig live
  refine ⟨ends_onEngine (fun t' live' ↦ ?_) fun dead ↦ absurd live (dead t),
    ends_onEngine (fun t' live' ↦ ?_) fun dead ↦ absurd live (dead t),
    ends_onEngine (fun t' live' ↦ ?_) fun dead ↦ absurd live (dead t)⟩
  · obtain rfl := live.unique live'
    exact Engine.begin_stops rest
  · obtain rfl := live.unique live'
    exact Engine.solve_stops rest
  · obtain rfl := live.unique live'
    exact Engine.advance_stops rest

-- What is said of the bench is not to be compared by carrying out the history.
seal Ends in
/-- Another track takes the residual of a solve that is under way, whose iterate has its Jacobian:
the iterate is uprooted, and the next iteration stops. -/
theorem newton_stops_bare :
    let history : List (Request Float 1) := [⟨_, .add #[0.0]⟩, ⟨_, .add #[1.0]⟩,
      ⟨_, .computeJacobian 0⟩, ⟨_, .begin 0⟩, ⟨_, .computeResidual 1⟩]
    let newton : Newton Float := { battery := .new .serial .standard {} false }
    let b := run (empty Circuit.bare .serial .standard newton 1) history
    ∃ t, b.Live 0 t ∧ (b.engine t).Uprooted ∧
      Ends (perform (.advance 0)) b (fun _ _ ↦ False) (fun stop _ ↦ stop = .missingJacobian) := by
  intro history newton b
  have there : b.tracks[0]?.join.isSome = true := by decide +kernel
  cases live : b.tracks[0]?.join with
  | none =>
    rw [live] at there
    cases there
  | some t =>
    have live : b.Live 0 t := Option.join_eq_some_iff.1 live
    have uprooted : (b.engine t).Uprooted :=
      Engine.uprooted_of_missingJacobian (newton_stops_of_history Circuit.bare .serial .standard
        newton history 0 t live).2.2 (by decide +kernel)
    exact ⟨t, live, uprooted, by decide +kernel⟩

end Bench

end OperatingPoint
