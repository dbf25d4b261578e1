import OperatingPoint.Proofs.ClampedRun
import OperatingPoint.Proofs.DiagonalShifts
import OperatingPoint.Proofs.LoadTraces
import OperatingPoint.Proofs.SeededRun

/-!
# The one step of a seed

A solve with a seed has three stages.  While the seed is pending nothing has been loaded.  Once it
is applied there has been one load, that of the residual at the initial guess, and the rows of the
seed are blank in it: `Rig.Waiting`.  The first Jacobian is loaded at the same point, gets rows of
the identity and spends the seed; all loads after it are stored as the device layer answers them:
`Rig.Spent`.

What is loaded, and what is stored of it, is told by the trace of the loads.
-/

set_option autoImplicit false

namespace OperatingPoint

open Step

variable {α : Type} [Scalar α] {n : Nat} {p : Partition}

/-! ## What a seed does to a load -/

namespace Seed

/-- A seed that has been applied replaces its rows of a Jacobian, and is spent then. -/
theorem augmentJacobian_applied (fits : ∀ i ∈ p.indices, i < n) (A : Mat α n n) :
    augmentJacobian { partition := p, phase := .applied } A =
      .ok ({ partition := p, phase := .spent }, A.pinned p.indices) := by
  unfold augmentJacobian
  dsimp only
  rw [Mat.foldlM_setIdentityRow fits]
  rfl

/-- A seed that is spent leaves a Jacobian alone. -/
theorem augmentJacobian_spent (A : Mat α n n) :
    augmentJacobian { partition := p, phase := .spent } A =
      .ok ({ partition := p, phase := .spent }, A) := rfl

end Seed

namespace Overlay

variable {o o' : Overlay α} {s : Seed} {x f f' : Vector α n} {A A' : Mat α n n} {load : Nat}

theorem augmentResidual_seed (there : o.strategy = some (.seed s)) (unblended : o.blend = none)
    (run : o.augmentResidual x f = .ok (o', f')) :
    ∃ s', s.augmentResidual f = .ok (s', f') ∧ o'.strategy = some (.seed s') := by
  rw [augmentResidual_some there] at run
  obtain ⟨_, changed, same⟩ := bind_eq_ok.1 run
  obtain ⟨⟨s', f₁⟩, seeded, same'⟩ := bind_eq_ok.1 changed
  cases same'
  rw [blendResidual, unblended] at same
  cases same
  exact ⟨s', seeded, rfl⟩

theorem augmentJacobian_seed (there : o.strategy = some (.seed s)) (unblended : o.blend = none)
    (run : o.augmentJacobian load A = .ok (o', A')) :
    ∃ s', s.augmentJacobian A = .ok (s', A') ∧ o'.strategy = some (.seed s') := by
  rw [augmentJacobian_some there] at run
  obtain ⟨_, changed, same⟩ := bind_eq_ok.1 run
  obtain ⟨⟨s', A₁⟩, seeded, same'⟩ := bind_eq_ok.1 changed
  cases same'
  rw [blendJacobian, unblended] at same
  cases same
  exact ⟨s', seeded, rfl⟩

end Overlay

/-- The loads of a solve with a seed, from a point on, of which there is anything.  The seed takes
part in the residual at the initial guess and in the first Jacobian, and all that is loaded later is
what the device layer has answered. -/
inductive Loading.Seeded (p : Partition) (x : Vector α n) : List (Loading α n) → Prop
  | nothing : Seeded p x []
  | guess (f : Vector α n) : Seeded p x [.residual x f (p.blank f)]
  | step (f : Vector α n) (A : Mat α n n) {later : List (Loading α n)}
    (plain : ∀ l ∈ later, l.Unmodified) :
    Seeded p x (.residual x f (p.blank f) :: .jacobian x A (A.pinned p.indices) :: later)

variable {δ : Type} [DirectSolver α] [Device δ α] {layer : δ} {r₀ r r' : Rig δ α n}
  {loads : List (Loading α n)}

/-! ## The stages of a solve -/

namespace Rig

/-- A rig in a solve with a seed, after some loads. -/
structure Seeding (r₀ : Rig δ α n) (layer : δ) (p : Partition) (loads : List (Loading α n))
    (r : Rig δ α n) : Prop where
  laid : r.Lays layer (some (.seed { partition := p })) none false
  communicator : r.store.communicator = r₀.store.communicator
  trace : r₀.LoadsTo loads r

/-- How far a seed has been used. -/
def InPhase (p : Partition) (phase : SeedPhase) (r : Rig δ α n) : Prop :=
  r.track.overlay.strategy = some (.seed { partition := p, phase := phase })

/-- A rig from which nothing has been loaded. -/
structure Pending (r₀ : Rig δ α n) (layer : δ) (p : Partition) (loads : List (Loading α n))
    (r : Rig δ α n) : Prop extends r₀.Seeding layer p loads r where
  here : r.track.x = r₀.track.x
  phase : r.InPhase p .pending
  flags : r.track.iterate.flags = {}
  nothing : loads.filter Loading.succeeds = []

/-- A rig from which the first residual has been loaded, and nothing since. -/
structure Applied (r₀ : Rig δ α n) (layer : δ) (p : Partition) (loads : List (Loading α n))
    (f : Vector α n) (r : Rig δ α n) : Prop extends r₀.Seeding layer p loads r where
  here : r.track.x = r₀.track.x
  phase : r.InPhase p .applied
  flags : r.track.iterate.flags = { residual := .valid }
  valid : r.isValid .residual = true
  stored : r.store.residual = p.blank f
  guess : loads.filter Loading.succeeds = [.residual r₀.track.x f (p.blank f)]

/-- A rig before the first Jacobian of a solve with a seed. -/
inductive Waiting (r₀ : Rig δ α n) (layer : δ) (p : Partition) (r : Rig δ α n) : Prop
  | pending {loads : List (Loading α n)} (h : r₀.Pending layer p loads r)
  | applied {loads : List (Loading α n)} {f : Vector α n} (h : r₀.Applied layer p loads f r)

/-- A rig after the first Jacobian of a solve with a seed. -/
inductive Spent (r₀ : Rig δ α n) (layer : δ) (p : Partition) (r : Rig δ α n) : Prop
  | intro {loads : List (Loading α n)} (seeding : r₀.Seeding layer p loads r)
    (phase : r.InPhase p .spent) {f : Vector α n} {A : Mat α n n} {later : List (Loading α n)}
    (step : loads.filter Loading.succeeds =
      .residual r₀.track.x f (p.blank f) :: .jacobian r₀.track.x A (A.pinned p.indices) :: later)
    (plain : ∀ l ∈ later, l.Unmodified)

/-- What becomes of the loads of a solve with a seed. -/
def SeedRun (r₀ : Rig δ α n) (p : Partition) (r : Rig δ α n) : Prop :=
  ∃ loads, r₀.LoadsTo loads r ∧
    Loading.Seeded p r₀.track.x (loads.filter Loading.succeeds)

theorem Waiting.laid (h : r₀.Waiting layer p r) :
    r.Lays layer (some (.seed { partition := p })) none false := by
  cases h with
  | pending h => exact h.laid
  | applied h => exact h.laid

theorem Waiting.here (h : r₀.Waiting layer p r) : r.track.x = r₀.track.x := by
  cases h with
  | pending h => exact h.here
  | applied h => exact h.here

theorem Waiting.seedRun (h : r₀.Waiting layer p r) : r₀.SeedRun p r := by
  cases h with
  | pending h => exact ⟨_, h.trace, h.nothing ▸ .nothing⟩
  | applied h => exact ⟨_, h.trace, h.guess ▸ .guess _⟩

theorem Spent.laid (h : r₀.Spent layer p r) :
    r.Lays layer (some (.seed { partition := p })) none false := by
  cases h with
  | intro seeding => exact seeding.laid

theorem Spent.communicator (h : r₀.Spent layer p r) :
    r.store.communicator = r₀.store.communicator := by
  cases h with
  | intro seeding => exact seeding.communicator

theorem Spent.seedRun (h : r₀.Spent layer p r) : r₀.SeedRun p r := by
  cases h with
  | intro seeding _ step plain => exact ⟨_, seeding.trace, step ▸ .step _ _ plain⟩

/-! ## Computations -/

/-- A residual is loaded while the seed is pending. -/
theorem Pending.computeResidual (h : r₀.Pending layer p loads r) :
    Ends computeResidual r (fun _ r' ↦ r₀.Waiting layer p r') (fun _ r' ↦ r₀.SeedRun p r') := by
  have off := h.laid.forwarding
  refine (computeResidual_lays h.laid).mp (.of_result (computeResidual_run r) ?_ ?_)
  · rintro ok r' run ⟨laid, frames⟩
    have communicator := frames.communicator.trans h.communicator
    cases run with
    | known valid => exact absurd valid (Bool.eq_false_iff.1 (not_isValid_of_fresh h.flags _))
    | unloaded _ run call failed =>
      obtain ⟨rfl, rfl⟩ := relay_of_off off run
      refine .pending ⟨⟨laid, communicator, h.trace.noResidual call (.inl failed) _⟩, h.here,
        h.phase, ?_, (Loading.filter_lost rfl).trans h.nothing⟩
      simp [withoutResidual, h.flags]
    | loaded _ run call good augmented =>
      obtain ⟨rfl, rfl⟩ := relay_of_off off run
      obtain ⟨s, seeded, there⟩ := Overlay.augmentResidual_seed h.phase
        (Option.map_eq_none_iff.1 h.laid.blend) augmented
      obtain ⟨rfl, rfl⟩ := Seed.augmentResidual_pending seeded
      refine .applied ⟨⟨laid, communicator, h.trace.residual call good augmented _⟩, h.here,
        there, rfl, ?_, rfl, ?_⟩
      · rw [isValid_iff]
        simp [Flags.of, good]
      · rw [Loading.filter_kept rfl, h.nothing, ← h.here]
        rfl
  · intro stop r' run _
    cases run with
    | reentered _ busy =>
      rw [h.flags] at busy
      cases busy
    | refused _ run =>
      rw [forward_off (r := r.computing) off] at run
      cases run
    | stuck _ run call good augmented =>
      obtain ⟨rfl, rfl⟩ := relay_of_off off run
      refine ⟨_, h.trace.noResidual call (.inr ⟨_, augmented⟩) _, ?_⟩
      rw [Loading.filter_lost rfl, h.nothing]
      exact .nothing

theorem computeResidual_waiting (h : r₀.Waiting layer p r) :
    Ends computeResidual r (fun _ r' ↦ r₀.Waiting layer p r') (fun _ r' ↦ r₀.SeedRun p r') := by
  cases h with
  | pending h => exact h.computeResidual
  | applied h => exact (ends_of_ok (computeResidual_of_valid h.valid)).2 (.applied h)

/-- The residual that goes with the first Jacobian. -/
theorem renewed_waiting (h : r₀.Waiting layer p r)
    (needed : r.isValid .residual = false ∨
      r.store.owners.of .auxState ≠ some r.track.iterate.id) :
    Ends computeResidual r.outdated (fun _ r' ↦ r₀.Waiting layer p r')
      (fun _ r' ↦ r₀.SeedRun p r') := by
  cases h with
  | pending h =>
    have outdated : r₀.Pending layer p _ r.outdated :=
      ⟨⟨h.laid.outdated, h.communicator, h.trace.iterate _⟩, h.here, h.phase,
        by simp [Rig.outdated, withoutResidual, h.flags], h.nothing⟩
    exact outdated.computeResidual
  | applied h =>
    rcases needed with invalid | unowned
    · rw [h.valid] at invalid
      cases invalid
    · exact absurd (h.laid.rest.owns_auxState h.valid) unowned

/-- A Jacobian is loaded where the seed has been applied. -/
theorem Refreshed.applied (h : r₀.Waiting layer p r) (base : Refreshed r r') :
    ∃ loads f, r₀.Applied layer p loads f r' := by
  have waiting : r₀.Waiting layer p r' := base.keeps h (renewed_waiting h)
  cases waiting with
  | pending h =>
    exact absurd base.spec.1 (Bool.eq_false_iff.1 (not_isValid_of_fresh h.flags _))
  | applied h => exact ⟨_, _, h⟩

/-- A rig at which the first direction is computed. -/
structure AtStep (r₀ : Rig δ α n) (p : Partition) (r : Rig δ α n) : Prop where
  here : r.track.x = r₀.track.x
  residual : r.isValid .residual = true
  jacobian : r.isValid .jacobian = true
  newton : r.isValid .newton = false
  blank : ∃ f : Vector α n, r.store.residual = p.blank f
  plain : r.store.jacobian.PlainIn p.indices

section

variable (fits : ∀ i ∈ p.indices, i < n)
include fits

/-- The first Jacobian. -/
theorem computeJacobian_waiting (h : r₀.Waiting layer p r) :
    Ends computeJacobian r
      (fun ok r' ↦ (ok = false → r₀.Waiting layer p r') ∧
        (ok = true → r₀.Spent layer p r' ∧ r₀.AtStep p r'))
      (fun _ r' ↦ r₀.SeedRun p r') := by
  refine (computeJacobian_lays h.laid).mp (.of_result (computeJacobian_run r) ?_ ?_)
  · rintro ok r' run ⟨laid, frames⟩
    cases run with
    | known valid =>
      have stale : r.track.iterate.flags.jacobian = .stale := by
        cases h with
        | pending h => rw [h.flags]
        | applied h => rw [h.flags]
      exact absurd valid (Iterate.not_isValid_of_stale (q := .jacobian) stale)
    | unrefreshed _ needed run =>
      exact ⟨fun _ ↦ (renewed_waiting h needed).ok run, fun good ↦ by cases good⟩
    | unloaded _ base call failed =>
      obtain ⟨loads, f, h⟩ := base.applied h
      refine ⟨fun _ ↦ .applied ⟨⟨laid, h.communicator, h.trace.noJacobian call (.inl failed) _⟩,
        h.here, h.phase, ?_, ?_, h.stored, (Loading.filter_lost rfl).trans h.guess⟩,
        fun good ↦ by cases good⟩
      · simp [h.flags]
      · have valid := h.valid
        rw [isValid_iff] at valid ⊢
        simpa [Flags.of] using valid
    | @loaded _ r' base load call good overlay A augmented =>
      obtain ⟨loads, f, h⟩ := base.applied h
      obtain ⟨s, seeded, there⟩ := Overlay.augmentJacobian_seed h.phase
        (Option.map_eq_none_iff.1 h.laid.blend) augmented
      rw [Seed.augmentJacobian_applied fits] at seeded
      cases seeded
      have step : (loads ++ [Loading.jacobian r'.track.x load.buffer
            (load.buffer.pinned p.indices)]).filter Loading.succeeds =
          [.residual r₀.track.x f (p.blank f),
            .jacobian r₀.track.x load.buffer (load.buffer.pinned p.indices)] := by
        rw [Loading.filter_kept rfl, h.guess, ← h.here]
        rfl
      refine ⟨fun bad ↦ (by cases bad), fun _ ↦ ⟨.intro ⟨laid, h.communicator,
        h.trace.jacobian call good augmented _⟩ there step (List.forall_mem_nil _), ?_⟩⟩
      refine ⟨h.here, ?_, ?_, ?_, ⟨f, h.stored⟩, Mat.pinned_plainIn _ _⟩
      · have valid := h.valid
        rw [isValid_iff] at valid ⊢
        simpa [Flags.of] using valid
      · rw [isValid_iff]
        simp [Flags.of, good]
      · exact Bool.eq_false_iff.2 (Iterate.not_isValid_of_stale (q := .newton) rfl)
  · intro stop r' run _
    cases run with
    | reentered => exact h.seedRun
    | refused _ needed run => exact (renewed_waiting h needed).error run
    | stuck _ base call good augmented =>
      obtain ⟨loads, f, h⟩ := base.applied h
      refine ⟨_, h.trace.noJacobian call (.inr ⟨_, augmented⟩) _, ?_⟩
      rw [Loading.filter_lost rfl, h.guess]
      exact .guess _

end

/-- One more load once the seed is spent. -/
theorem Spent.snoc {l : Loading α n} (seeding : r₀.Seeding layer p (loads ++ [l]) r')
    (phase : r'.InPhase p .spent) {f : Vector α n} {A : Mat α n n} {later : List (Loading α n)}
    (step : loads.filter Loading.succeeds =
      .residual r₀.track.x f (p.blank f) :: .jacobian r₀.track.x A (A.pinned p.indices) :: later)
    (plain : ∀ l ∈ later, l.Unmodified) (unmodified : l.Unmodified) : r₀.Spent layer p r' := by
  cases kept : l.succeeds with
  | false => exact .intro seeding phase ((Loading.filter_lost kept).trans step) plain
  | true =>
    refine .intro seeding phase ((Loading.filter_kept kept).trans (congrArg (· ++ [l]) step)) ?_
    intro l' there
    rcases List.mem_append.1 there with there | there
    · exact plain l' there
    · cases List.mem_singleton.1 there
      exact unmodified

theorem computeResidual_spent (h : r₀.Spent layer p r) :
    Ends computeResidual r (fun _ r' ↦ r₀.Spent layer p r') (fun _ r' ↦ r₀.SeedRun p r') := by
  have seedRun := h.seedRun
  obtain ⟨seeding, phase, step, plain⟩ := h
  have off := seeding.laid.forwarding
  refine (computeResidual_lays seeding.laid).mp (.of_result (computeResidual_run r) ?_ ?_)
  · rintro ok r' run ⟨laid, frames⟩
    have communicator := frames.communicator.trans seeding.communicator
    cases run with
    | known => exact .intro seeding phase step plain
    | unloaded _ run call failed =>
      obtain ⟨rfl, rfl⟩ := relay_of_off off run
      exact .snoc ⟨laid, communicator, seeding.trace.noResidual call (.inl failed) _⟩ phase step
        plain trivial
    | loaded _ run call good augmented =>
      obtain ⟨rfl, rfl⟩ := relay_of_off off run
      obtain ⟨s, seeded, there⟩ := Overlay.augmentResidual_seed phase
        (Option.map_eq_none_iff.1 seeding.laid.blend) augmented
      rw [Seed.augmentResidual_used (fun pending ↦ by cases pending)] at seeded
      cases seeded
      exact .snoc ⟨laid, communicator, seeding.trace.residual call good augmented _⟩ there step
        plain rfl
  · intro stop r' run _
    cases run with
    | reentered => exact seedRun
    | refused _ run =>
      rw [forward_off (r := r.computing) off] at run
      cases run
    | stuck _ run call good augmented =>
      obtain ⟨rfl, rfl⟩ := relay_of_off off run
      refine ⟨_, seeding.trace.noResidual call (.inr ⟨_, augmented⟩) _, ?_⟩
      rw [Loading.filter_lost rfl, step]
      exact .step _ _ plain

theorem Spent.outdated (h : r₀.Spent layer p r) : r₀.Spent layer p r.outdated := by
  obtain ⟨seeding, phase, step, plain⟩ := h
  exact .intro ⟨seeding.laid.outdated, seeding.communicator, seeding.trace.iterate _⟩ phase step
    plain

theorem computeJacobian_spent (h : r₀.Spent layer p r) :
    Ends computeJacobian r (fun _ r' ↦ r₀.Spent layer p r') (fun _ r' ↦ r₀.SeedRun p r') := by
  have renewed := computeResidual_spent h.outdated
  have refreshed : ∀ {r' : Rig δ α n}, Refreshed r r' → r₀.Spent layer p r' :=
    fun base ↦ base.keeps h fun _ ↦ renewed
  refine (computeJacobian_lays h.laid).mp (.of_result (computeJacobian_run r) ?_ ?_)
  · rintro ok r' run ⟨laid, frames⟩
    have communicator := frames.communicator.trans h.communicator
    cases run with
    | known => exact h
    | unrefreshed _ _ run => exact renewed.ok run
    | unloaded _ base call failed =>
      obtain ⟨seeding, phase, step, plain⟩ := refreshed base
      exact .snoc ⟨laid, communicator, seeding.trace.noJacobian call (.inl failed) _⟩ phase step
        plain trivial
    | loaded _ base call good augmented =>
      obtain ⟨seeding, phase, step, plain⟩ := refreshed base
      obtain ⟨s, seeded, there⟩ := Overlay.augmentJacobian_seed phase
        (Option.map_eq_none_iff.1 seeding.laid.blend) augmented
      rw [Seed.augmentJacobian_spent] at seeded
      cases seeded
      exact .snoc ⟨laid, communicator, seeding.trace.jacobian call good augmented _⟩ there step
        plain rfl
  · intro stop r' run _
    cases run with
    | reentered => exact h.seedRun
    | refused _ _ run => exact renewed.error run
    | stuck _ base call good augmented =>
      obtain ⟨seeding, phase, step, plain⟩ := refreshed base
      refine ⟨_, seeding.trace.noJacobian call (.inr ⟨_, augmented⟩) _, ?_⟩
      rw [Loading.filter_lost rfl, step]
      exact .step _ _ plain

theorem computeNewton_spent (h : r₀.Spent layer p r) (mayReuse : Bool) :
    Ends (computeNewton mayReuse) r (fun _ r' ↦ r₀.Spent layer p r')
      (fun _ r' ↦ r₀.SeedRun p r') := by
  obtain @⟨loads, seeding, phase, f, A, later, step, plain⟩ := h
  have left := seeding.trace.newton mayReuse
  have spent : ∀ {r' : Rig δ α n}, r₀.LoadsTo loads r' →
      r'.Lays layer (some (.seed { partition := p })) none false ∧ r.Frames r' →
      r.Redirects r' → r₀.Spent layer p r' := by
    rintro r' trace ⟨laid, frames⟩ redirects
    refine .intro ⟨laid, frames.communicator.trans seeding.communicator, trace⟩ ?_ step plain
    rw [InPhase, redirects.overlay]
    exact phase
  refine ((computeNewton_lays seeding.laid mayReuse).and (computeNewton_redirects r mayReuse)).mp
    (.of_result (R := fun result ↦ computeNewton mayReuse r = result) rfl ?_ ?_)
  · rintro ok r' run ⟨lays, redirects⟩
    rw [Step.after, run] at left
    exact spent left lays redirects
  · rintro stop r' run ⟨lays, redirects⟩
    rw [Step.after, run] at left
    exact (spent left lays redirects).seedRun

theorem Spent.move (h : r₀.Spent layer p r) (x : Vector α n) :
    r₀.Spent layer p (r.put r.store (r.track.iterate.setX x) r.track.overlay) := by
  obtain ⟨seeding, phase, step, plain⟩ := h
  exact .intro ⟨keeps_lays.move seeding.laid x, seeding.communicator, seeding.trace.iterate _⟩
    phase step plain

/-- What a Newton driver carries along in a solve with a seed. -/
theorem carries_seeding (fits : ∀ i ∈ p.indices, i < n) :
    Rig.Carries (fun r : Rig δ α n ↦ r₀.Waiting layer p r ∨ r₀.Spent layer p r)
      (fun r ↦ r₀.Waiting layer p r ∨ r₀.Spent layer p r) (fun r ↦ r₀.Spent layer p r)
      (fun r ↦ r₀.SeedRun p r) (fun _ ↦ True) (fun _ ↦ True) where
  opens h := h
  settles h := .inr h
  stops h := h.elim Waiting.seedRun Spent.seedRun
  point _ := trivial
  enter h := by
    rcases h with waiting | spent
    · exact (computeResidual_waiting waiting).mono (fun _ _ kept ↦ .inl kept) fun _ _ kept ↦ kept
    · exact (computeResidual_spent spent).mono (fun _ _ kept ↦ .inr kept) fun _ _ kept ↦ kept
  first h := by
    rcases h with waiting | spent
    · refine (computeJacobian_waiting fits waiting).mono (fun ok r' kept ↦ ?_) fun _ _ kept ↦ kept
      cases ok with
      | false => exact ⟨.inl (kept.1 rfl), fun good ↦ by cases good⟩
      | true => exact ⟨.inr (kept.2 rfl).1, fun _ ↦ (kept.2 rfl).1⟩
    · exact (computeJacobian_spent spent).mono (fun _ _ kept ↦ ⟨.inr kept, fun _ ↦ kept⟩)
        fun _ _ kept ↦ kept
  residual := computeResidual_spent
  jacobian := computeJacobian_spent
  newton h mayReuse := (computeNewton_spent h mayReuse).mono
    (fun _ _ kept ↦ ⟨kept, fun _ ↦ trivial⟩) fun _ _ kept ↦ kept
  move h _ _ _ := h.move _

end Rig

end OperatingPoint
