import OperatingPoint.Proofs.AnalysisRun

/-!
# Solves with a seed

A seed blanks the rows of the first residual of a solve, and takes part in nothing after the first
Jacobian.  So the residual that the battery sees of the initial guess is not that of the device
equations: its rows at the seeded unknowns are zero.  The residual of any later iterate is.

Whether an iterate is the initial guess is told by its generation, which goes on with every move.
The property that is carried through a solve, `Rig.Pinned`, distinguishes the two by that; and the
count of the iterations, which a solve hands back, says which of the two it has ended at.
-/

set_option autoImplicit false

namespace OperatingPoint

open Step

/-- A residual with the rows of a partition replaced by zeros. -/
def Partition.blank {α : Type} [Scalar α] {n : Nat} (p : Partition) (f : Vector α n) : Vector α n :=
  Vector.ofFn fun i ↦ if i.val ∈ p.indices then 0 else f.get i

namespace Seed

variable {α : Type} [Scalar α] {n : Nat}

theorem get_writeAll_zero {indices : List Nat} {f f' : Vector α n}
    (run : writeAll (indices.map fun i ↦ (i, (0 : α))) f = .ok f') (j : Fin n) :
    f'.get j = if j.val ∈ indices then 0 else f.get j := by
  induction indices generalizing f with
  | nil =>
    cases run
    rfl
  | cons i rest ih =>
    obtain ⟨f₁, written, run⟩ := bind_eq_ok.1 run
    unfold writeAt at written
    split at written
    · rename_i inside
      cases written
      rw [ih run, get_set f ⟨i, inside⟩ j 0]
      by_cases later : j.val ∈ rest
      · simp [later]
      · simp [later, Fin.ext_iff, eq_comm]
    · cases written

/-- A seed that has not been used yet blanks its rows, and has been used then. -/
theorem augmentResidual_pending {p : Partition} {s : Seed} {f f' : Vector α n}
    (run : augmentResidual { partition := p } f = .ok (s, f')) :
    s = { partition := p, phase := .applied } ∧ f' = p.blank f := by
  obtain ⟨f₁, written, same⟩ := bind_eq_ok.1 run
  cases same
  refine ⟨rfl, ext_get fun j ↦ ?_⟩
  rw [get_writeAll_zero written, Partition.blank, get_ofFn]

/-- A seed that has been used leaves a residual alone. -/
theorem augmentResidual_used {s : Seed} (used : s.phase ≠ .pending) (f : Vector α n) :
    s.augmentResidual f = .ok (s, f) := by
  unfold augmentResidual
  split
  · exact absurd (by assumption) used
  · rfl

theorem augmentJacobian_used {s s' : Seed} {A A' : Mat α n n} (used : s.phase ≠ .pending)
    (run : s.augmentJacobian A = .ok (s', A')) : s'.phase ≠ .pending := by
  unfold augmentJacobian at run
  split at run
  · obtain ⟨_, _, same⟩ := bind_eq_ok.1 run
    cases same
    exact nofun
  · cases run
    exact used

end Seed

variable {δ α : Type} [Scalar α] [DirectSolver α] [Device δ α] {n : Nat} {layer : δ}
  {P : PureDevice δ α} {p : Partition} {g : Nat}

/-! ## What a seed has done to a residual -/

/-- A seed is attached and has been used. -/
def Overlay.SeedUsed (o : Overlay α) : Prop :=
  ∃ s : Seed, o.strategy = some (.seed s) ∧ s.phase ≠ .pending

namespace Rig

variable {r r' : Rig δ α n}

/-- Where a seed has been used: at the initial guess, of generation `g`, the residual is that of the
device equations with the seeded rows blanked, and anywhere else it is that of the device
equations. -/
inductive Shown (P : PureDevice δ α) (p : Partition) (g : Nat) (r : Rig δ α n) : Prop
  | initial (generation : r.track.iterate.generation = g) (valid : r.isValid .residual = true)
    (blank : r.store.residual = p.blank (r.equations P))
  | later (generation : g < r.track.iterate.generation)
    (plain : r.isValid .residual = true → r.store.residual = r.equations P)

/-- A rig in a solve with a seed that has been used. -/
structure Pinned (P : PureDevice δ α) (layer : δ) (p : Partition) (g : Nat) (r : Rig δ α n) :
    Prop where
  laid : r.Lays layer (some (.seed { partition := p })) none false
  used : r.track.overlay.SeedUsed
  shown : r.Shown P p g

/-- What is shown of a residual depends on little. -/
theorem Shown.of_same (h : r.Shown P p g)
    (generation : r'.track.iterate.generation = r.track.iterate.generation)
    (valid : r'.isValid .residual = r.isValid .residual)
    (residual : r'.store.residual = r.store.residual)
    (equations : r'.equations P = r.equations P) : r'.Shown P p g := by
  cases h with
  | initial there known blank =>
    refine .initial (generation.trans there) (valid.trans known) ?_
    rw [residual, equations]
    exact blank
  | later there plain =>
    refine .later (by rw [generation]; exact there) fun known ↦ ?_
    rw [residual, equations]
    exact plain (valid.symm.trans known)

/-- Nothing is forwarded to a seed. -/
theorem forward_seedUsed (h : r.track.overlay.SeedUsed) :
    Ends forward r (fun _ r' ↦ r'.track.overlay.SeedUsed)
      (fun _ r' ↦ r'.track.overlay.SeedUsed) := by
  refine forward_overlay (K := Overlay.SeedUsed) ?_ ?_ h
  · rintro o o' value ⟨s, there, used⟩ changed
    rw [Overlay.setProgress, there] at changed
    cases changed
  · rintro o o' value ⟨s, there, used⟩ changed
    obtain ⟨-, same⟩ := Overlay.setBlend_lambda changed
    exact ⟨s, same.trans there, used⟩

theorem computeResidual_pinned (h : r.Pinned P layer p g) :
    Ends computeResidual r (fun _ r' ↦ r'.track.overlay.SeedUsed ∧ r'.Shown P p g)
      (fun _ r' ↦ r'.track.overlay.SeedUsed ∧ r'.Shown P p g) := by
  have forwarded := (forward_seedUsed (r := r.computing) h.used).and (forward_alike r.computing)
  -- Where the residual is not there the iterate has been moved.
  have later : r.isValid .residual = false → g < r.track.iterate.generation := by
    intro invalid
    cases h.shown with
    | initial _ valid =>
      rw [valid] at invalid
      cases invalid
    | later generation => exact generation
  have invalid : ∀ {s : Store δ α n} {it : Iterate α n} {o : Overlay α},
      r.isValid .residual = false → it.generation = r.track.iterate.generation →
      it.flags.residual = .stale → (r.put s it o).Shown P p g := by
    intro s it o unready same stale
    refine .later ?_ fun valid ↦ absurd valid
      (Iterate.not_isValid_of_stale (q := .residual) stale)
    show g < it.generation
    rw [same]
    exact later unready
  refine .of_result (computeResidual_run r) ?_ ?_
  · intro ok r' run
    cases run with
    | known => exact ⟨h.used, h.shown⟩
    | unloaded unready run => exact ⟨(forwarded.ok run).1, invalid unready rfl rfl⟩
    | @loaded unready device overlay overlay' run load call good f augmented =>
      obtain ⟨⟨s, there, used⟩, alike⟩ := forwarded.ok run
      have there : overlay.strategy = some (.seed s) := there
      have unblended : overlay.blend = none :=
        Option.map_eq_none_iff.1 (alike.blend.trans h.laid.blend)
      have seeded : Augmentation.augmentResidual r.track.x load.buffer (.seed s) =
          .ok (.seed s, load.buffer) := by
        rw [Augmentation.augmentResidual, Seed.augmentResidual_used used]
        rfl
      rw [Overlay.augmentResidual_some there] at augmented
      obtain ⟨_, changed, same⟩ := bind_eq_ok.1 augmented
      obtain rfl := Except.ok.inj (seeded.symm.trans changed)
      rw [Overlay.blendResidual, unblended] at same
      cases same
      subst call
      refine ⟨⟨s, rfl, used⟩, .later (later unready) fun _ ↦ ?_⟩
      show (Device.loadResidual device r.track.x r.store.previous r.store.residual).buffer =
        P.residual (P.view (Device.loadResidual device r.track.x r.store.previous
          r.store.residual).device) r.track.x r.store.previous
      rw [P.residual_buffer _ _ _ _ good, P.residual_view]
  · intro e r' run
    cases run with
    | reentered => exact ⟨h.used, h.shown⟩
    | refused unready run => exact ⟨(forwarded.error run).1, invalid unready rfl rfl⟩
    | stuck unready run => exact ⟨(forwarded.ok run).1, invalid unready rfl rfl⟩

/-- A rig without its residual has no residual to be shown. -/
theorem Shown.outdated (h : r.Shown P p g) (rest : r.AtRest)
    (needed : r.isValid .residual = false ∨
      r.store.owners.of .auxState ≠ some r.track.iterate.id) : r.outdated.Shown P p g := by
  cases h with
  | initial _ valid =>
    rcases needed with invalid | unowned
    · rw [valid] at invalid
      cases invalid
    · exact absurd (rest.owns_auxState valid) unowned
  | later generation =>
    exact .later generation fun valid ↦
      absurd valid (Iterate.not_isValid_of_stale (q := .residual) rfl)

theorem computeJacobian_pinned (h : r.Pinned P layer p g) :
    Ends computeJacobian r (fun _ r' ↦ r'.track.overlay.SeedUsed ∧ r'.Shown P p g)
      (fun _ r' ↦ r'.track.overlay.SeedUsed ∧ r'.Shown P p g) := by
  have renewed : (r.isValid .residual = false ∨
      r.store.owners.of .auxState ≠ some r.track.iterate.id) →
      Ends computeResidual r.outdated (fun _ r' ↦ r'.track.overlay.SeedUsed ∧ r'.Shown P p g)
        (fun _ r' ↦ r'.track.overlay.SeedUsed ∧ r'.Shown P p g) := by
    intro needed
    exact computeResidual_pinned ⟨h.laid.outdated, h.used, h.shown.outdated h.laid.rest needed⟩
  have refreshed : ∀ {r' : Rig δ α n}, Refreshed r r' →
      r'.track.overlay.SeedUsed ∧ r'.Shown P p g :=
    fun base ↦ base.keeps ⟨h.used, h.shown⟩ renewed
  -- A load of the Jacobian leaves what the residual is said to be.
  have kept : ∀ {r' : Rig δ α n} {load : Load δ (Mat α n n)} {A : Mat α n n} {v : Validity}
      {o : Overlay α}, load = r'.store.jacobianLoad r'.track.x → r'.Shown P p g →
      (r'.put { r'.store.afterJacobian r'.track.iterate.id load with jacobian := A }
        { r'.track.iterate with
          flags := { residual := r'.track.iterate.flags.residual, jacobian := v } }
        o).Shown P p g := by
    intro r' load A v o call shown
    subst call
    refine shown.of_same rfl ?_ rfl ?_
    · rw [Bool.eq_iff_iff, isValid_iff, isValid_iff]
      simp [Flags.of]
    · show P.residual (P.view (Device.loadJacobian ..).device) _ _ = _
      rw [P.jacobian_view]
      rfl
  refine .of_result (computeJacobian_run r) ?_ ?_
  · intro ok r' run
    cases run with
    | known => exact ⟨h.used, h.shown⟩
    | unrefreshed _ needed run => exact (renewed needed).ok run
    | unloaded _ base call => exact ⟨(refreshed base).1, kept call (refreshed base).2⟩
    | @loaded _ r' base load call good overlay A augmented =>
      obtain ⟨⟨s, there, used⟩, shown⟩ := refreshed base
      refine ⟨?_, kept call shown⟩
      rw [Overlay.augmentJacobian_some there] at augmented
      obtain ⟨⟨a, _⟩, changed, same⟩ := bind_eq_ok.1 augmented
      obtain ⟨⟨s', _⟩, seeded, same'⟩ := bind_eq_ok.1 changed
      cases same'
      cases same
      exact ⟨s', rfl, Seed.augmentJacobian_used used seeded⟩
  · intro e r' run
    cases run with
    | reentered => exact ⟨h.used, h.shown⟩
    | refused _ needed run => exact (renewed needed).error run
    | stuck _ base call => exact ⟨(refreshed base).1, kept call (refreshed base).2⟩

theorem computeNewton_pinned (h : r.Pinned P layer p g) (mayReuse : Bool) :
    Ends (computeNewton mayReuse) r (fun _ r' ↦ r'.track.overlay.SeedUsed ∧ r'.Shown P p g)
      (fun _ r' ↦ r'.track.overlay.SeedUsed ∧ r'.Shown P p g) := by
  have kept : ∀ {r' : Rig δ α n}, r.Redirects r' →
      r'.track.overlay.SeedUsed ∧ r'.Shown P p g := by
    intro r' redirects
    refine ⟨?_, h.shown.of_same redirects.generation redirects.valid redirects.residual
      (redirects.equations P)⟩
    rw [redirects.overlay]
    exact h.used
  exact (computeNewton_redirects r mayReuse).mono (fun _ _ ↦ kept) fun _ _ ↦ kept

/-- A Newton driver keeps what a seed that has been used has left. -/
theorem keeps_pinned : Keeps (Pinned (n := n) P layer p g) fun _ ↦ True where
  rest h := h.laid.rest
  move {r} h x := by
    refine ⟨keeps_lays.move h.laid x, h.used, .later ?_ fun valid ↦
      absurd valid (Iterate.not_isValid_of_stale (q := .residual) rfl)⟩
    show g < r.track.iterate.generation + 1
    cases h.shown with
    | initial generation => omega
    | later generation => omega
  residual h := ((keeps_lays.residual h.laid).and (computeResidual_pinned h)).mono
    (fun _ _ kept ↦ ⟨kept.1, kept.2.1, kept.2.2⟩)
    fun _ _ kept ↦ ⟨trivial, kept.1.2, kept.2.1, kept.2.2⟩
  jacobian h := ((keeps_lays.jacobian h.laid).and (computeJacobian_pinned h)).mono
    (fun _ _ kept ↦ ⟨kept.1, kept.2.1, kept.2.2⟩)
    fun _ _ kept ↦ ⟨trivial, kept.1.2, kept.2.1, kept.2.2⟩
  newton h valid mayReuse ready :=
    ((keeps_lays.newton h.laid valid mayReuse ready).and (computeNewton_pinned h mayReuse)).mono
      (fun _ _ kept ↦ ⟨kept.1, kept.2.1, kept.2.2⟩)
      fun _ _ kept ↦ ⟨trivial, kept.1.2, kept.2.1, kept.2.2⟩

/-- The first residual of a solve with a seed. -/
theorem computeResidual_pending (laid : r.Lays layer (some (.seed { partition := p })) none false)
    (pending : r.track.overlay.strategy = some (.seed { partition := p }))
    (invalid : r.isValid .residual = false) :
    Ends computeResidual r
      (fun ok r' ↦ r'.Lays layer (some (.seed { partition := p })) none false ∧
        (ok = true → r'.Pinned P layer p r.track.iterate.generation))
      (fun _ r' ↦ r'.Lays layer (some (.seed { partition := p })) none false) := by
  have forwarded := (forward_overlay (r := r.computing)
    (K := fun o ↦ o.strategy = some (.seed { partition := p })) (by
      intro o o' value there changed
      rw [Overlay.setProgress, there] at changed
      cases changed) (by
      intro o o' value there changed
      rw [(Overlay.setBlend_lambda changed).2]
      exact there) pending).and (forward_alike r.computing)
  have shown : Ends computeResidual r
      (fun ok r' ↦ r'.Lays layer (some (.seed { partition := p })) none false → ok = true →
        r'.Pinned P layer p r.track.iterate.generation) (fun _ _ ↦ True) := by
    refine .of_result (computeResidual_run r) ?_ fun _ _ _ ↦ trivial
    intro ok r' run laid' good
    cases run with
    | known valid =>
      rw [valid] at invalid
      cases invalid
    | unloaded => cases good
    | @loaded _ device overlay overlay' run load call good' f augmented =>
      obtain ⟨there, alike⟩ := forwarded.ok run
      have there : overlay.strategy = some (.seed { partition := p }) := there
      have unblended : overlay.blend = none :=
        Option.map_eq_none_iff.1 (alike.blend.trans laid.blend)
      rw [Overlay.augmentResidual_some there] at augmented
      obtain ⟨_, changed, same⟩ := bind_eq_ok.1 augmented
      obtain ⟨⟨s, f₁⟩, seeded, same'⟩ := bind_eq_ok.1 changed
      obtain ⟨rfl, rfl⟩ := Seed.augmentResidual_pending seeded
      cases same'
      rw [Overlay.blendResidual, unblended] at same
      cases same
      subst call
      refine ⟨laid', ⟨_, rfl, fun used ↦ by cases used⟩, .initial rfl ?_ ?_⟩
      · rw [isValid_iff]
        simp [Flags.of, good']
      · show p.blank (Device.loadResidual device r.track.x r.store.previous
          r.store.residual).buffer = p.blank (P.residual (P.view (Device.loadResidual device r.track.x
            r.store.previous r.store.residual).device) r.track.x r.store.previous)
        rw [P.residual_buffer _ _ _ _ good', P.residual_view]
  exact ((keeps_lays.residual laid).and shown).mono (fun _ _ kept ↦ ⟨kept.1, kept.2 kept.1⟩)
    fun _ _ kept ↦ kept.1.2

end Rig

namespace Engine

variable {e e' : Engine δ α n}

/-- What a verdict about the residual is worth after so many iterations with a seed: it is one of the
device equations, if there has been an iteration, and else of them without the seeded rows. -/
def Confirms (P : PureDevice δ α) (p : Partition) (iterations : Nat) (e : Engine δ α n) : Prop :=
  (iterations ≠ 0 → e.Solves P) ∧
  (iterations = 0 →
    e.newton.battery.communicator.allFinite (p.blank (e.rig.equations P)).toArray = true ∧
    e.newton.battery.communicator.normInf (p.blank (e.rig.equations P)).toArray <
      e.newton.battery.options.rhsTol)

/-- A verdict about the residual is worth what the residual shows. -/
theorem Judged.confirms {status : Status} (judged : e.Judged status) (shown : e.rig.Shown P p g)
    (paced : e.newton.iteration ≠ 0 ↔ g < e.iterate.generation) {v : Verdict}
    (converged : status = .converged v) (about : v.isAboutResidual = true) :
    e.Confirms P p e.newton.iteration := by
  obtain ⟨valid, finite, small⟩ := judged.converged v converged about
  cases shown with
  | initial generation _ blank =>
    rw [blank] at finite small
    refine ⟨fun moved ↦ ?_, fun _ ↦ ⟨finite, small⟩⟩
    exact absurd (paced.1 moved) (by rw [iterate, generation]; exact Nat.lt_irrefl g)
  | later generation plain =>
    rw [plain valid] at finite small
    exact ⟨fun _ ↦ ⟨finite, small⟩, fun still ↦ absurd still (paced.2 generation)⟩

/-- The start of a solve with a seed. -/
theorem begin_seeded (laid : e.rig.Lays layer (some (.seed { partition := p })) none false)
    (pending : e.rig.track.overlay.strategy = some (.seed { partition := p }))
    (invalid : e.rig.isValid .residual = false) :
    Ends begin e
      (fun status e' ↦ e.newton.battery.Alike e'.newton.battery ∧ e'.newton.status = status ∧
        e'.rig.Lays layer (some (.seed { partition := p })) none false ∧
        (status = .failed .nanFail ∨
          e'.rig.Pinned P layer p e.iterate.generation ∧ e'.newton.started = true ∧
            e'.Judged status ∧ e'.newton.iteration = 0 ∧
            e'.iterate.generation = e.iterate.generation))
      (fun _ e' ↦ e.newton.battery.Alike e'.newton.battery ∧
        e'.rig.Lays layer (some (.seed { partition := p })) none false) := by
  unfold begin
  simp only [ends_bind, ends_modifyNewton, ends_onRig, ends_ite, ends_get, ends_finish]
  refine ((Rig.computeResidual_pending (P := P) laid pending invalid).and
    (Rig.computeResidual_stays laid.rest)).mono ?_ ?_
  · rintro ok r ⟨⟨laid', pinned⟩, stays, -, -, good, -⟩
    refine ⟨fun loaded ↦ ?_, fun _ ↦ ⟨Battery.reset_alike _, trivial, laid', .inl trivial⟩⟩
    let e₁ : Engine δ α n := { e.opened with rig := r }
    refine (classify_keeps (e := e₁) Rig.keeps_pinned (pinned loaded) (good loaded) _).mono ?_ ?_
    · intro status e' classified
      have arrives := classified.arrives
      obtain ⟨battery, -, newton⟩ := classified.newton
      refine ⟨(Battery.reset_alike _).trans arrives.alike, trivial, arrives.keeps.laid,
        .inr ⟨arrives.keeps, arrives.started, arrives.judged, ?_, ?_⟩⟩
      · rw [newton]
        rfl
      · exact classified.stays.generation.trans stays.generation
    · rintro stop e' ⟨-, halts⟩
      exact ⟨(Battery.reset_alike _).trans halts.alike, halts.keeps.laid⟩
  · rintro stop r ⟨laid', -⟩
    exact ⟨Battery.reset_alike _, laid'⟩

/-- A whole solve with a seed. -/
theorem solve_seeded (laid : e.rig.Lays layer (some (.seed { partition := p })) none false)
    (pending : e.rig.track.overlay.strategy = some (.seed { partition := p }))
    (invalid : e.rig.isValid .residual = false) :
    Ends solve e
      (fun outcome e' ↦ e.newton.battery.Alike e'.newton.battery ∧
        e'.rig.Lays layer (some (.seed { partition := p })) none false ∧
        ∀ v, outcome.status = .converged v → v.isAboutResidual = true →
          e'.Confirms P p outcome.iterations)
      (fun _ e' ↦ e.newton.battery.Alike e'.newton.battery ∧
        e'.rig.Lays layer (some (.seed { partition := p })) none false) := by
  unfold solve
  simp only [ends_bind, ends_get, ends_pure]
  refine (begin_seeded (P := P) laid pending invalid).mono ?_ fun _ _ h ↦ h
  rintro status e₁ ⟨alike, noted, laid₁, failed | ⟨pinned, started, judged, first, generation⟩⟩
  · subst failed
    rw [iterateWhile_decided rfl, ends_pure]
    refine ⟨alike, laid₁, fun v converged ↦ ?_⟩
    rw [show e₁.newton.outcome.status = e₁.newton.status from rfl, noted] at converged
    cases converged
  · refine (iterateWhile_keeps Rig.keeps_pinned pinned started noted judged _).mono ?_ ?_
    · rintro _ e' arrives
      refine ⟨alike.trans arrives.alike, arrives.keeps.laid, fun v converged about ↦ ?_⟩
      refine arrives.judged.confirms arrives.keeps.shown ?_ converged about
      -- The iterate has been moved if and only if there has been an iteration.
      have moved := arrives.paces.moved
      rw [first, generation] at moved
      refine ⟨fun later ↦ ?_, fun later still ↦ ?_⟩
      · have : 0 < e'.newton.iteration := Nat.pos_of_ne_zero later
        omega
      · have same := (arrives.paces.still (still.trans first.symm)).1
        rw [same, generation] at later
        exact Nat.lt_irrefl _ later
    · rintro stop e' ⟨-, halts⟩
      exact ⟨alike.trans halts.alike, halts.keeps.laid⟩

/-- What is confirmed is confirmed with another track at the same point. -/
theorem Confirms.withTrack {iterations : Nat} (h : e.Confirms P p iterations) {t : Track α n}
    (shifts : e.rig.track.Shifts t) :
    ({ e with rig := e.rig.withTrack t } : Engine δ α n).Confirms P p iterations := by
  have same := Rig.equations_of_shifts (P := P) shifts
  refine ⟨fun later ↦ ?_, fun first ↦ ?_⟩
  · obtain ⟨finite, small⟩ := h.1 later
    rw [← same] at finite small
    exact ⟨finite, small⟩
  · have shown := h.2 first
    rw [← same] at shown
    exact shown

end Engine

namespace Drive

variable {d d' : Drive δ α n}

/-- A plain Newton solve with a seed waiting and nothing clamped. -/
theorem newton_seeded (h : d.engine.rig.Bare P layer) {options : ModeOptions α}
    {ctx : ContinuationContext α} (unclamped : clamp? options ctx = .ok none)
    (seeded : d.seed = some p) :
    Ends (newton options ctx) d
      (fun _ d' ↦ d.Leaves P layer d' ∧ ∃ outcome, d'.last = some outcome ∧
        ∀ v, outcome.status = .converged v → v.isAboutResidual = true →
          d'.engine.Confirms P p outcome.iterations)
      (fun _ d' ↦ d.Leaves P layer d') := by
  have off : ∀ {e : Engine δ α n},
      e.rig.Lays layer (some (.seed { partition := p })) none false →
      (e.rig.withTrack e.rig.track.detach).Bare P layer :=
    fun laid ↦ .of_fresh laid.detach (Track.detach_flags laid.isSome_strategy)
  unfold newton
  simp only [unclamped, ends_bind, ends_orFault_ok, ends_get, seeded, ends_modify]
  unfold solveUnder solveNewton
  simp only [ends_bind, ends_attach, ends_attempt, ends_onEngine, ends_modify, ends_pure,
    ends_modifyTrack, ends_lift_ok, ends_lift_error]
  refine ⟨fun t attached ↦ ?_, fun cause _ ↦ ⟨h, .refl _⟩⟩
  have pending : t.overlay.strategy = some (.seed { partition := p }) := by
    rw [Track.attach_overlay attached]
  have fresh : t.iterate.flags = {} := by
    unfold Track.attach at attached
    split at attached
    · cases attached
    · obtain ⟨_, _, same⟩ := bind_eq_ok.1 attached
      cases same
      rfl
  refine (Engine.solve_seeded (P := P) (h.laid.attach attached) pending
    (Rig.not_isValid_of_fresh fresh _)).mono ?_ ?_
  · rintro outcome e ⟨alike, laid, confirms⟩
    exact ⟨⟨off laid, alike⟩, outcome, rfl, fun v converged about ↦
      (confirms v converged about).withTrack e.rig.track.detach_shifts⟩
  · rintro stop e ⟨alike, laid⟩
    exact ⟨off laid, alike⟩

end Drive

namespace Analysis

variable {c : Communicator α} {o : SolverOptions α} {a a₀ : Analysis δ α}

/-- The residual of the device equations without the rows of a partition. -/
def blankResidual (P : PureDevice δ α) (p : Partition) (a : Analysis δ α) : Array α :=
  match a.engine with
  | some e => (p.blank (e.engine.rig.equations P)).toArray
  | none => #[]

/-- The residual of the device equations without the rows of a partition is finite and below the
tolerance of the mode. -/
structure SolvesApart (P : PureDevice δ α) (p : Partition) (a : Analysis δ α) : Prop where
  finite : a.communicator.allFinite (a.blankResidual P p) = true
  small : a.communicator.normInf (a.blankResidual P p) <
    (a.options.ofMode a.session.mode).nonlinear.rhsTol

/-- **Solves with a seed.**  Wherever a history of an analysis leads, and whatever seed is waiting
there, a plain Newton solve without initial conditions that ends with a verdict about the residual
solves the device equations, seeded rows included, if it has made an iteration.  One that ends at the
initial guess solves the rows that are not seeded. -/
theorem seeded_solve_of_history (P : PureDevice δ α) (made : new layer c o = .ok a₀)
    (history : List (Request α)) (seeded : (a₀.run history).seed = some p) :
    Ends solve (a₀.run history)
      (fun _ a ↦ ¬ a.UsesConditions → a.session.lastSolveType = some .newton →
        ∃ outcome, a.last = some outcome ∧
          (outcome.status = .converged .normTooSmall ∨
              outcome.status = .converged .normalConvergence →
            (outcome.iterations ≠ 0 → a.Solves P) ∧
            (outcome.iterations = 0 → a.SolvesApart P p)))
      (fun _ _ ↦ True) := by
  have h : (a₀.run history).Ready P layer c o := run_ready (ready_of_new made) history
  generalize a₀.run history = a at h seeded
  unfold solve
  simp only [ends_bind, ends_get, ends_modify]
  refine (ensureBuilt_ready h).mono ?_ fun _ _ _ ↦ trivial
  rintro _ a₁ ⟨built₁, seed₁⟩
  refine (ensureContext_ready built₁).mono ?_ fun _ _ _ ↦ trivial
  rintro ctx a₂ ⟨built, context, seed₂⟩
  split
  · trivial
  · rename_i e there
    obtain ⟨mode, noted, ready⟩ := built.ready.engine e there
    obtain rfl : a₂.session.mode = mode := Option.some.inj (built.fits.symm.trans noted)
    let drive : Drive δ α e.unknowns := { engine := e.engine, seed := a₂.seed }
    split
    · rename_i code d run
      simp only [ends_bind, ends_set, ends_pure]
      intro unused kind
      have unclamped : Drive.clamp? (a₂.options.ofMode a₂.session.mode) ctx = .ok none := by
        refine Drive.clamp?_of_unused fun used ↦ unused ⟨?_, used.2⟩
        show (a₂.context.bind ContinuationContext.initialConditions).isSome = true
        rw [context]
        exact used.1
      have plain : a₂.effectiveSolveType = .newton := Option.some.inj kind
      have waiting : drive.seed = some p := seed₂.trans (seed₁.trans seeded)
      obtain ⟨leaves, outcome, last, confirms⟩ :=
        (Drive.newton_seeded (d := drive) ready.bare unclamped waiting).ok (by
          rw [← run]
          show _ = Drive.run _ ctx a₂.effectiveSolveType drive
          rw [plain]
          rfl)
      have alike := ready.alike.trans leaves.alike
      refine ⟨outcome, ?_, fun about ↦ ?_⟩
      · show d.last.or a₂.last = some outcome
        rw [last, Option.some_or]
      · have confirmed : d.engine.Confirms P p outcome.iterations := by
          rcases about with rounding | normal
          · exact confirms _ rounding rfl
          · exact confirms _ normal rfl
        have communicator : d.engine.newton.battery.communicator = a₂.communicator :=
          alike.communicator.trans built.ready.communicator.symm
        have options : d.engine.newton.battery.options =
            (a₂.options.ofMode a₂.session.mode).nonlinear := by
          rw [built.ready.options]
          exact alike.options
        rw [Engine.Confirms, communicator, options] at confirmed
        refine ⟨fun later ↦ ?_, fun first ↦ ?_⟩
        · obtain ⟨finite, small⟩ := confirmed.1 later
          rw [communicator] at finite small
          rw [options] at small
          exact ⟨finite, small⟩
        · exact ⟨(confirmed.2 first).1, (confirmed.2 first).2⟩
    · trivial

/-- A circuit of one unknown under a name. -/
def namedCircuit : Circuit := { Circuit.bare with names := [("v", 0)] }

-- What is said of the analysis is not to be compared by carrying out the history.
seal Ends in
/-- A seed on every unknown is taken for a solution at once.  What is solved is nothing at all. -/
theorem seeded_solve_everywhere :
    let history : List (Request Float) := [⟨_, .setSeed (.ofList [("v", 1.0)])⟩]
    ∃ a₀ : Analysis Circuit Float, new namedCircuit .serial .standard = .ok a₀ ∧
      ∃ p, (a₀.run history).seed = some p ∧
        Ends solve (a₀.run history)
          (fun code a ↦ code = 1 ∧ a.SolvesApart Circuit.pure p ∧
            (a.residual Circuit.pure == #[-2.0]) = true) fun _ _ ↦ False := by
  intro history
  have ran : Yields (new namedCircuit .serial .standard : Except Stop (Analysis Circuit Float))
      fun a₀ ↦ (a₀.run history).seed.isSome = true ∧ Ends solve (a₀.run history)
        (fun code a ↦ code = 1 ∧ ¬ a.UsesConditions ∧
          a.session.lastSolveType = some .newton ∧
          (a.last.map fun outcome ↦ (outcome.status, outcome.iterations)) =
            some (.converged .normTooSmall, 0) ∧
          (a.residual Circuit.pure == #[-2.0]) = true) fun _ _ ↦ False := by
    decide +kernel
  obtain ⟨a₀, made, waiting, run⟩ := ran.exists
  obtain ⟨p, seeded⟩ := Option.isSome_iff_exists.1 waiting
  refine ⟨a₀, made, p, seeded, ?_⟩
  refine (run.and (seeded_solve_of_history Circuit.pure made history seeded)).mono ?_
    fun _ _ stopped ↦ stopped.1
  rintro code a ⟨⟨rfl, unused, kind, verdict, pinned⟩, sound⟩
  obtain ⟨outcome, last, confirms⟩ := sound unused kind
  rw [last] at verdict
  obtain ⟨rounding, first⟩ := Prod.mk.inj (Option.some.inj verdict)
  exact ⟨rfl, (confirms (.inl rounding)).2 first, pinned⟩

end Analysis

end OperatingPoint
