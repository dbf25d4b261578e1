import OperatingPoint.Proofs.SeedStages

/-!
# The one solve of a seed

In exact arithmetic the first direction of a solve with a seed is zero at the seeded unknowns: the
residual is blank in their rows, and the Jacobian has rows of the identity there.  It is the only
direction that is followed in the first iteration, which so leaves the seeded unknowns where they
are.

Plain Newton takes a seed that is waiting, and attaches it for one solve, if it has been set for as
many unknowns as there are.
-/

set_option autoImplicit false

namespace OperatingPoint

open Step

variable {α : Type} [Scalar α] {n : Nat} {p : Partition}

namespace Partition

variable {x x' base direction f : Vector α n} {step : α}

/-- The unknowns of a partition are where they were, as far as they are finite. -/
def Unmoved (p : Partition) (x x' : Vector α n) : Prop :=
  ∀ i : Fin n, i.val ∈ p.indices →
    Scalar.isFinite (x.get i) = true ∨ Scalar.isFinite (x'.get i) = true → x'.get i = x.get i

/-- A vector is zero in the rows of a partition. -/
def Still (p : Partition) (v : Vector α n) : Prop := ∀ i : Fin n, i.val ∈ p.indices → v.get i = 0

theorem Unmoved.refl (p : Partition) (x : Vector α n) : p.Unmoved x x := fun _ _ _ ↦ rfl

theorem still_zeros (p : Partition) : p.Still (zeros α n) := fun i _ ↦ get_replicate 0 i

/-- Along a direction that is zero there, the unknowns of a partition are not moved. -/
theorem Unmoved.addScaled (exact : Scalar.Exact α) (h : p.Unmoved x base)
    (still : p.Still direction) (length : Scalar.isFinite step = true) :
    p.Unmoved x (addScaled base step direction) := by
  intro i listed finite
  have entry : (OperatingPoint.addScaled base step direction).get i = base.get i + 0 := by
    rw [get_addScaled, still i listed, exact.mul_zero length]
  rw [entry] at finite ⊢
  have same : base.get i = x.get i :=
    h i listed (finite.imp_right fun finite ↦ (exact.finite_of_add finite).1)
  rw [same] at finite ⊢
  exact exact.add_zero (finite.elim (fun finite ↦ finite)
    fun finite ↦ (exact.finite_of_add finite).1)

/-- The right-hand side that goes with a residual whose rows are blank. -/
theorem still_rightHandSide (exact : Scalar.Exact α) (p : Partition) (f : Vector α n) :
    p.Still (Store.rightHandSide (p.blank f)) := by
  intro i listed
  rw [Store.rightHandSide, get_ofFn, blank, get_ofFn, if_pos listed, exact.neg_zero]

end Partition

variable {δ : Type} [DirectSolver α] [Device δ α] {layer : δ} {r₀ r r' : Rig δ α n}

/-! ## The first iteration -/

namespace Rig

/-- The first direction is zero at the seeded unknowns. -/
theorem computeNewton_atStep (exact : Scalar.Exact α) (direct : DirectSolver.Exact α)
    (hears : r₀.store.communicator.Hears) (spent : r₀.Spent layer p r) (h : r₀.AtStep p r) :
    Ends (computeNewton false) r
      (fun ok r' ↦ (r₀.Spent layer p r' ∧ p.Unmoved r₀.track.x r'.track.x) ∧
        (ok = true ∨ r'.store.communicator.allFinite r'.store.newton.toArray = true →
          p.Still r'.store.newton))
      (fun _ r' ↦ p.Unmoved r₀.track.x r'.track.x) := by
  have unmoved : ∀ {r' : Rig δ α n}, r.Redirects r' → p.Unmoved r₀.track.x r'.track.x := by
    intro r' redirects
    rw [show r'.track.x = r₀.track.x from redirects.x.trans h.here]
    exact .refl p _
  have hears : r.store.communicator.Hears := spent.communicator ▸ hears
  have solve : Ends (Workspace.solve (Table.ofSquare r.store.jacobian)
      (Store.rightHandSide r.store.residual) false) r.store.workspace
      (fun out _ ↦ ZeroIn p.indices out.1) (fun _ _ ↦ True) := by
    obtain ⟨f, blank⟩ := h.blank
    rw [blank]
    exact (Workspace.solve_zeroIn exact direct h.plain (p.still_rightHandSide exact f)
      fun reuses ↦ by cases reuses).mono (fun _ _ solved ↦ solved.2) fun _ _ _ ↦ trivial
  refine ((computeNewton_spent spent false).and (computeNewton_redirects r false)).mp
    (.of_result (computeNewton_run r false) ?_ fun _ _ _ kept ↦ unmoved kept.2)
  rintro ok r' run ⟨spent', redirects⟩
  refine ⟨⟨spent', unmoved redirects⟩, ?_⟩
  cases run with
  | known valid => exact absurd valid (Bool.eq_false_iff.1 h.newton)
  | solved _ _ _ run =>
    have zero := solve.ok run
    exact fun either ↦ zero (hears.finite (either.elim
      (fun accepts ↦ (Bool.and_eq_true_iff.1 accepts).1) fun all ↦ all))
  | refused => exact fun _ ↦ p.still_zeros

/-- What a Newton driver carries along while it follows the first direction. -/
theorem pursues_seeding (exact : Scalar.Exact α) (r₀ : Rig δ α n) (layer : δ) (p : Partition) :
    Rig.Pursues
      (fun r : Rig δ α n ↦ r₀.Spent layer p r ∧ p.Unmoved r₀.track.x r.track.x)
      (fun r ↦ p.Unmoved r₀.track.x r.track.x) (p.Unmoved r₀.track.x) p.Still := by
  have stays : ∀ {r r' : Rig δ α n}, p.Unmoved r₀.track.x r.track.x → r.Stays r' →
      p.Unmoved r₀.track.x r'.track.x := by
    intro r r' unmoved stays
    rw [show r'.track.x = r.track.x from stays.x]
    exact unmoved
  exact {
    stops := fun h ↦ h.2
    point := fun h ↦ h.2
    residual := fun h ↦ ((computeResidual_spent h.1).and
      (computeResidual_stays h.1.laid.rest)).mono
      (fun _ _ kept ↦ ⟨kept.1, stays h.2 kept.2.1⟩) fun _ _ kept ↦ stays h.2 kept.2
    jacobian := fun h ↦ ((computeJacobian_spent h.1).and
      (computeJacobian_stays h.1.laid.rest)).mono
      (fun _ _ kept ↦ ⟨kept.1, stays h.2 kept.2.1⟩) fun _ _ kept ↦ stays h.2 kept.2
    newton := fun h mayReuse ↦ ((computeNewton_spent h.1 mayReuse).and
      (computeNewton_stays h.1.laid.rest mayReuse)).mono
      (fun _ _ kept ↦ ⟨kept.1, stays h.2 kept.2.1⟩) fun _ _ kept ↦ stays h.2 kept.2
    move := fun h unmoved still trial ↦
      ⟨h.1.move _, unmoved.addScaled exact still (trial.finite exact)⟩ }

theorem Waiting.unmoved (h : r₀.Waiting layer p r) : p.Unmoved r₀.track.x r.track.x := by
  rw [h.here]
  exact .refl p _

end Rig

namespace Engine

variable {e : Engine δ α n}

/-- The start of a solve with a seed leaves the iterate where it is. -/
theorem begin_waiting (h : r₀.Waiting layer p e.rig) :
    Ends begin e (fun _ e' ↦ r₀.Waiting layer p e'.rig ∧ e'.newton.iteration = 0)
      (fun _ e' ↦ p.Unmoved r₀.track.x e'.rig.track.x) := by
  refine begin_enters (W := fun r ↦ r₀.Waiting layer p r) Rig.Waiting.unmoved
    (((Rig.computeResidual_waiting h).and (Rig.computeResidual_stays h.laid.rest)).mono
      (fun _ _ kept ↦ kept.1) fun _ r' stopped ↦ ?_)
  rw [show r'.track.x = e.rig.track.x from stopped.2.x]
  exact h.unmoved

section

variable (exact : Scalar.Exact α) (direct : DirectSolver.Exact α)
  (hears : r₀.store.communicator.Hears) (fits : ∀ i ∈ p.indices, i < n)
include exact direct hears fits

theorem iterateOnce_waiting (h : r₀.Waiting layer p e.rig) (first : e.newton.iteration = 0) :
    Ends iterateOnce e (fun _ e' ↦ p.Unmoved r₀.track.x e'.rig.track.x)
      (fun _ e' ↦ p.Unmoved r₀.track.x e'.rig.track.x) := by
  have pursues := Rig.pursues_seeding exact r₀ layer p
  unfold iterateOnce
  simp only [ends_bind, ends_get, ends_ite, ends_onRig, ends_finish, keepsFactors_first first]
  refine ⟨fun _ ↦ ?_, fun kept ↦ absurd rfl kept⟩
  refine ((Rig.computeJacobian_waiting fits h).and (Rig.computeJacobian_stays h.laid.rest)).mono
    ?_ fun _ r' stopped ↦ ?_
  · rintro ok r₁ ⟨⟨lost, loaded⟩, -⟩
    refine ⟨fun failed ↦ (lost (by simpa using failed)).unmoved, fun good ↦ ?_⟩
    obtain ⟨spent, atStep⟩ := loaded (by simpa using good)
    rw [ends_of_ok (Rig.computeResidual_of_valid atStep.residual)]
    refine ⟨fun failed ↦ (by cases failed), fun _ ↦ ?_⟩
    refine (usableDirection_along (e := ⟨r₁, e.newton⟩) pursues.stops
      (Rig.computeNewton_atStep exact direct hears spent atStep)).mono ?_ fun _ _ stopped ↦ stopped
    rintro d e₂ ⟨kept, along⟩
    cases d with
    | error verdict => exact kept.2
    | ok d =>
      exact (follow_pursues pursues kept (along d rfl)).mono (fun _ _ kept ↦ kept.2)
        fun _ _ stopped ↦ stopped
  · show p.Unmoved r₀.track.x r'.track.x
    rw [show r'.track.x = e.rig.track.x from stopped.2.x]
    exact h.unmoved

theorem advance_waiting (h : r₀.Waiting layer p e.rig) (first : e.newton.iteration = 0) :
    Ends advance e (fun _ e' ↦ p.Unmoved r₀.track.x e'.rig.track.x)
      (fun _ e' ↦ p.Unmoved r₀.track.x e'.rig.track.x) := by
  unfold advance
  simp only [ends_bind, ends_get, ends_ite, ends_pure]
  refine ⟨fun _ ↦ ?_, fun _ ↦ ⟨fun _ ↦ h.unmoved, fun _ ↦
    iterateOnce_waiting exact direct hears fits h first⟩⟩
  refine (begin_waiting h).mono (fun _ e₁ started ↦ ?_) fun _ _ stopped ↦ stopped
  exact ⟨fun _ ↦ started.1.unmoved, fun _ ↦ ⟨fun _ ↦ started.1.unmoved, fun _ ↦
    iterateOnce_waiting exact direct hears fits started.1 started.2⟩⟩

/-- The start of a solve with a seed, and its first iteration. -/
theorem firstIteration_unmoved (h : r₀.Waiting layer p e.rig) :
    Ends (do let status ← begin; iterateWhile 1 status) e
      (fun _ e' ↦ p.Unmoved r₀.track.x e'.rig.track.x)
      (fun _ e' ↦ p.Unmoved r₀.track.x e'.rig.track.x) := by
  rw [ends_bind]
  refine (begin_waiting h).mono (fun status e₁ started ↦ ?_) fun _ _ stopped ↦ stopped
  rw [iterateWhile]
  simp only [ends_ite, ends_bind, ends_pure]
  exact ⟨fun _ ↦ started.1.unmoved, fun _ ↦
    advance_waiting exact direct hears fits started.1 started.2⟩

end

/-! ## A solve -/

/-- The engine with a seed that has not been used attached to its track. -/
def seeded (p : Partition) (e : Engine δ α n) : Engine δ α n :=
  { e with rig := e.rig.withTrack { e.rig.track with
      overlay := { e.rig.track.overlay with
        strategy := some (.seed { partition := p }) } }.invalidate }

/-- The engine without the strategy that is attached to its track. -/
def detached (e : Engine δ α n) : Engine δ α n :=
  { e with rig := e.rig.withTrack e.rig.track.detach }

/-- A solve in which a seed acts on one step.  All that is loaded is stored as the device layer
answers it, except the residual at the initial guess, whose rows at the seeded unknowns are blank,
and the first Jacobian, which has rows of the identity there.  The start of the solve and its first
iteration leave the seeded unknowns where they are. -/
structure ActsOnce (p : Partition) (e : Engine (Journal δ α) α n) : Prop where
  loads : ∃ loads : List (Loading α n),
    e.rig.LoadsTo loads (Step.after solve e).rig ∧
      (Step.after solve e).rig.journal.requests =
        (loads.map Loading.request).reverse ++ e.rig.journal.requests ∧
      Loading.Seeded p e.iterate.x (loads.filter Loading.succeeds)
  unmoved : Ends (do let status ← begin; iterateWhile 1 status) e
    (fun _ e' ↦ p.Unmoved e.iterate.x e'.iterate.x) (fun _ e' ↦ p.Unmoved e.iterate.x e'.iterate.x)

omit [Device δ α] in
/-- A seed is attached where nothing else is, if it fits. -/
theorem attach_seed (e : Engine δ α n) (bare : e.rig.track.overlay.strategy = none) :
    e.rig.track.attach (.seed { partition := p }) =
      if p.bound = n then .ok (e.seeded p).rig.track
      else .error (.partition (.otherSystem "seed" p.bound n)) := by
  unfold Track.attach
  rw [bare]
  show (p.check n "seed" >>= fun _ ↦ _) = _
  unfold Partition.check
  split
  · rfl
  · rfl

theorem seeded_actsOnce {layer : Journal δ α} {e : Engine (Journal δ α) α n}
    (exact : Scalar.Exact α) (direct : DirectSolver.Exact α)
    (hears : e.rig.store.communicator.Hears) (laid : e.rig.Lays layer none none false)
    (fits : p.bound = n) : (e.seeded p).ActsOnce p := by
  have bare : e.rig.track.overlay.strategy = none := Option.map_eq_none_iff.1 laid.strategy
  have inside : ∀ i ∈ p.indices, i < n := fun i listed ↦ fits ▸ p.below_bound i listed
  have attached := e.attach_seed (p := p) bare
  rw [if_pos fits] at attached
  have waiting : (e.seeded p).rig.Waiting layer p (e.seeded p).rig :=
    .pending ⟨⟨laid.attach attached, rfl, .start⟩, rfl, rfl, rfl, rfl⟩
  refine ⟨?_, firstIteration_unmoved exact direct hears inside waiting⟩
  have run : (e.seeded p).rig.SeedRun p (Step.after solve (e.seeded p)).rig :=
    ((solve_carries (Rig.carries_seeding inside) (.inl waiting)).mono
      (fun _ _ kept ↦ kept.elim Rig.Waiting.seedRun Rig.Spent.seedRun) fun _ _ kept ↦ kept).after
  obtain ⟨loads, trace, seeded⟩ := run
  exact ⟨loads, trace, trace.requests, seeded⟩

end Engine

/-! ## A strategy -/

namespace Drive

variable {d : Drive δ α n}

/-- What plain Newton does with the seed that is waiting. -/
structure Takes (p : Partition) (d d' : Drive δ α n) : Prop where
  seed : d'.seed = none
  misfit : p.bound ≠ n → d'.engine = d.engine
  fit : p.bound = n → d'.engine = (Step.after Engine.solve (d.engine.seeded p)).detached

theorem newton_takes (bare : d.engine.rig.track.overlay.strategy = none)
    {options : ModeOptions α} {ctx : ContinuationContext α}
    (unclamped : clamp? options ctx = .ok none) (waiting : d.seed = some p) :
    Ends (newton options ctx) d (fun _ d' ↦ d.Takes p d') (fun _ d' ↦ d.Takes p d') := by
  unfold newton
  simp only [unclamped, ends_bind, ends_orFault_ok, ends_get, waiting, ends_modify]
  unfold solveUnder solveNewton
  simp only [ends_bind, ends_attach, ends_attempt, ends_onEngine, ends_modify, ends_pure,
    ends_modifyTrack, ends_lift_ok, ends_lift_error]
  rw [d.engine.attach_seed bare]
  refine ⟨fun t attached ↦ ?_, fun cause refused ↦ ?_⟩
  · split at attached
    · rename_i fits
      cases attached
      refine .of_result (R := fun result ↦ Engine.solve (d.engine.seeded p) = result) rfl ?_ ?_
      · intro outcome e run
        refine ⟨rfl, fun misfit ↦ absurd fits misfit, fun _ ↦ ?_⟩
        rw [Step.after, run]
        rfl
      · intro stop e run
        refine ⟨rfl, fun misfit ↦ absurd fits misfit, fun _ ↦ ?_⟩
        rw [Step.after, run]
        rfl
    · cases attached
  · split at refused
    · cases refused
    · rename_i misfit
      exact ⟨rfl, fun _ ↦ rfl, fun fits ↦ absurd fits misfit⟩

end Drive

end OperatingPoint
