import OperatingPoint.Proofs.Computations

/-!
# Rigs between computations

Between two computations no quantity is being computed, and whoever owns the residual owns what its
load has left in the device layer.  From such a rig a computation leads to another one, however it
ends, and it leaves the iterate where it is: `Rig.Stays`.  A residual that is valid survives it, as
it is.

The last point carries the rest of the theory of Newton's iteration.  A Jacobian is loaded at an
iterate whose residual has been put to the battery, and that residual must be there afterwards.

As long as no other iterate takes the residual, there is no Jacobian without it: then the rig is
*rooted*.
-/

set_option autoImplicit false

namespace OperatingPoint

open Step

/-! ## Iterates and stores -/

/-- Nothing is being computed. -/
structure Iterate.Rests {α : Type} {n : Nat} (it : Iterate α n) : Prop where
  residual : it.flags.residual ≠ .computing
  jacobian : it.flags.jacobian ≠ .computing

theorem Iterate.Rests.of_fresh {α : Type} {n : Nat} {it : Iterate α n} (h : it.flags = {}) :
    it.Rests := by
  refine ⟨?_, ?_⟩
  · rw [h]
    exact nofun
  · rw [h]
    exact nofun

section

variable {δ α : Type} [DirectSolver α] {n : Nat}

/-- Whoever owns the residual owns the auxiliary state that goes with it. -/
def Store.Paired (s : Store δ α n) : Prop := s.owners.of .auxState = s.owners.of .residual

namespace Store.Paired

variable {s : Store δ α n} {id : OwnerId}

theorem afterResidual (load : Load δ (Vector α n)) : (s.afterResidual id load).Paired := by
  simp [Store.Paired]

theorem afterJacobian (h : s.Paired) (load : Load δ (Mat α n n)) :
    (s.afterJacobian id load).Paired := by
  simpa [Store.Paired] using h

theorem afterSolve [Scalar α] (h : s.Paired) (w : Workspace α) (x : Vector α n) (stats : SolveStats α) :
    (s.afterSolve id w x stats).Paired := by
  simpa [Store.Paired] using h

theorem afterRefusal [Scalar α] (h : s.Paired) (w : Workspace α) : (s.afterRefusal w).Paired := by
  simpa [Store.Paired] using h

theorem setPrevious (x : Vector α n) : (s.setPrevious x).Paired := by
  simp [Store.Paired, Store.setPrevious, Store.disown, Quantity.mem_all]

/-- What is moved or taken away is moved or taken away together. -/
theorem putAll_ownedBy (h : s.Paired) (owner : Option OwnerId) :
    (s.owners.putAll (s.ownedBy id) owner).of .auxState =
      (s.owners.putAll (s.ownedBy id) owner).of .residual := by
  have same : Quantity.auxState ∈ s.ownedBy id ↔ Quantity.residual ∈ s.ownedBy id := by
    have pair : s.owners.of .auxState = s.owners.of .residual := h
    simp [Store.ownedBy, Quantity.mem_all, pair]
  rw [Owners.of_putAll, Owners.of_putAll, h]
  by_cases owned : Quantity.residual ∈ s.ownedBy id
  · rw [if_pos owned, if_pos (same.2 owned)]
  · rw [if_neg owned, if_neg fun h ↦ owned (same.1 h)]

theorem release (h : s.Paired) : (s.release id).Paired := h.putAll_ownedBy none

theorem transfer (h : s.Paired) (target : OwnerId) : (s.transfer id target).Paired :=
  h.putAll_ownedBy (some target)

end Store.Paired

/-! ## Rigs -/

variable [Scalar α]

/-- A rig between two computations. -/
structure Rig.AtRest (r : Rig δ α n) : Prop where
  paired : r.store.Paired
  rests : r.track.iterate.Rests

/-- From a rig to another one between two computations, where the iterate has not been moved. -/
structure Rig.Stays (r r' : Rig δ α n) : Prop where
  rest : r'.AtRest
  id : r'.track.iterate.id = r.track.iterate.id
  x : r'.track.iterate.x = r.track.iterate.x
  generation : r'.track.iterate.generation = r.track.iterate.generation
  residual : r.isValid .residual = true →
    r'.isValid .residual = true ∧ r'.store.residual = r.store.residual

namespace Rig

variable {r r' r'' : Rig δ α n}

theorem Stays.refl (h : r.AtRest) : r.Stays r := ⟨h, rfl, rfl, rfl, fun valid ↦ ⟨valid, rfl⟩⟩

theorem Stays.trans (h : r.Stays r') (h' : r'.Stays r'') : r.Stays r'' where
  rest := h'.rest
  id := h'.id.trans h.id
  x := h'.x.trans h.x
  generation := h'.generation.trans h.generation
  residual valid := by
    obtain ⟨valid', same⟩ := h.residual valid
    obtain ⟨valid'', same'⟩ := h'.residual valid'
    exact ⟨valid'', same'.trans same⟩

theorem AtRest.move (h : r.AtRest) (x : Vector α n) :
    (r.put r.store (r.track.iterate.setX x) r.track.overlay).AtRest :=
  ⟨h.paired, .of_fresh rfl⟩

theorem AtRest.outdated (h : r.AtRest) : r.outdated.AtRest := ⟨h.paired, nofun, h.rests.jacobian⟩

/-- A residual that is valid brings its auxiliary state with it. -/
theorem AtRest.owns_auxState (h : r.AtRest) (valid : r.isValid .residual = true) :
    r.store.owners.of .auxState = some r.track.iterate.id :=
  h.paired.trans (isValid_iff.1 valid).2

/-! ## The computations -/

/-- What computing the Newton direction leaves. -/
theorem computeNewton_stays (h : r.AtRest) (mayReuse : Bool) :
    Ends (computeNewton mayReuse) r
      (fun ok r' ↦ r.Stays r' ∧ (ok = true → r'.isValid .newton = true))
      (fun _ r' ↦ r.Stays r') := by
  have stays : ∀ {s : Store δ α n} {flag : Validity}, s.Paired →
      s.owners.of .residual = r.store.owners.of .residual → s.residual = r.store.residual →
      r.Stays (r.put s (withNewton r.track.iterate flag) r.track.overlay) := by
    intro s flag paired owner same
    refine ⟨⟨paired, h.rests.residual, h.rests.jacobian⟩, rfl, rfl, rfl, fun valid ↦ ⟨?_, same⟩⟩
    rw [isValid_iff] at valid ⊢
    exact ⟨valid.1, owner.trans valid.2⟩
  refine .of_result (computeNewton_run r mayReuse) ?_ ?_
  · intro ok r' run
    cases run with
    | known valid => exact ⟨.refl h, fun _ ↦ valid⟩
    | solved invalid ready ready' run =>
      refine ⟨stays (h.paired.afterSolve _ _ _) (by simp) rfl, fun good ↦ ?_⟩
      rw [isValid_iff]
      simp [Flags.of, withNewton, good]
    | refused invalid ready ready' run =>
      exact ⟨stays (h.paired.afterRefusal _) (by simp) rfl, fun solved ↦ by cases solved⟩
  · intro e r' run
    cases run with
    | noResidual => exact .refl h
    | noJacobian => exact .refl h
    | stopped => exact stays h.paired rfl rfl

/-- The iterate does not have its Jacobian without its residual. -/
def Rooted (r : Rig δ α n) : Prop := r.isValid .jacobian = true → r.isValid .residual = true

theorem Rooted.of_invalid (invalid : r.isValid .jacobian = false) : r.Rooted := fun valid ↦ by
  rw [invalid] at valid
  cases valid

theorem Rooted.of_stale (stale : r.track.iterate.flags.jacobian ≠ .valid) : r.Rooted := fun valid ↦
  absurd (isValid_iff.1 valid).1 stale

theorem computeNewton_rooted (h : r.Rooted) (mayReuse : Bool) :
    Ends (computeNewton mayReuse) r (fun _ r' ↦ r'.Rooted) (fun _ r' ↦ r'.Rooted) := by
  have same : ∀ {s : Store δ α n} {flag : Validity},
      s.owners.of .residual = r.store.owners.of .residual →
      s.owners.of .jacobian = r.store.owners.of .jacobian →
      (r.put s (withNewton r.track.iterate flag) r.track.overlay).Rooted := by
    intro s flag residual jacobian valid
    have before := h (isValid_iff.2 ⟨(isValid_iff.1 valid).1,
      jacobian.symm.trans (isValid_iff.1 valid).2⟩)
    exact isValid_iff.2 ⟨(isValid_iff.1 before).1, residual.trans (isValid_iff.1 before).2⟩
  refine .of_result (computeNewton_run r mayReuse) ?_ ?_
  · intro ok r' run
    cases run with
    | known => exact h
    | solved => exact same (by simp) (by simp)
    | refused => exact same (by simp) (by simp)
  · intro stop r' run
    cases run with
    | noResidual => exact h
    | noJacobian => exact h
    | stopped => exact same rfl rfl

variable [Device δ α]

/-- A computation whose result is there already does nothing. -/
theorem computeResidual_of_valid (valid : r.isValid .residual = true) :
    computeResidual r = .ok true r := by
  have run := computeResidual_run r
  generalize computeResidual r = result at run ⊢
  cases run with
  | known => rfl
  | reentered invalid | refused invalid | unloaded invalid | stuck invalid | loaded invalid =>
    rw [valid] at invalid
    cases invalid

theorem computeJacobian_of_valid (valid : r.isValid .jacobian = true) :
    computeJacobian r = .ok true r := by
  have run := computeJacobian_run r
  generalize computeJacobian r = result at run ⊢
  cases run with
  | known => rfl
  | reentered invalid | unrefreshed invalid | refused invalid | unloaded invalid | stuck invalid
  | loaded invalid =>
    rw [valid] at invalid
    cases invalid

/-- What computing the residual leaves. -/
theorem computeResidual_stays (h : r.AtRest) :
    Ends computeResidual r
      (fun ok r' ↦ r.Stays r' ∧ r'.store.workspace = r.store.workspace ∧
        r'.store.factorOwner = r.store.factorOwner ∧
        (ok = true → r'.isValid .residual = true) ∧
        (ok = false → r'.track.iterate.measured.norms? = none))
      (fun _ r' ↦ r.Stays r') := by
  have stays : ∀ {s : Store δ α n} {it : Iterate α n} {o : Overlay α},
      r.isValid .residual = false → (r.put s it o).AtRest → it.id = r.track.iterate.id →
      it.x = r.track.iterate.x → it.generation = r.track.iterate.generation →
      r.Stays (r.put s it o) := by
    intro s it o invalid rest id x generation
    refine ⟨rest, id, x, generation, fun valid ↦ ?_⟩
    rw [invalid] at valid
    cases valid
  have rests : (withoutResidual r.track.iterate).Rests := ⟨nofun, h.rests.jacobian⟩
  refine .of_result (computeResidual_run r) ?_ ?_
  · intro ok r' run
    have valid := run.valid
    cases run with
    | known => exact ⟨.refl h, rfl, rfl, fun _ ↦ valid, nofun⟩
    | unloaded invalid =>
      exact ⟨stays invalid ⟨.afterResidual _, rests.1, rests.2⟩ rfl rfl rfl, rfl, rfl, nofun,
        fun _ ↦ rfl⟩
    | loaded invalid =>
      exact ⟨stays invalid ⟨.afterResidual _, nofun, nofun⟩ rfl rfl rfl, rfl, rfl, fun _ ↦ valid,
        nofun⟩
  · intro e r' run
    cases run with
    | reentered invalid => exact .refl h
    | refused invalid => exact stays invalid ⟨h.paired, rests⟩ rfl rfl rfl
    | stuck invalid => exact stays invalid ⟨.afterResidual _, rests⟩ rfl rfl rfl

theorem Refreshed.stays (h : r.AtRest) (base : Refreshed r r') : r.Stays r' := by
  cases base with
  | already => exact .refl h
  | renewed needed run =>
    obtain ⟨stays, _, _, valid, _⟩ := (computeResidual_stays h.outdated).ok run
    refine ⟨stays.rest, stays.id, stays.x, stays.generation, fun valid ↦ ?_⟩
    rcases needed with invalid | unowned
    · rw [valid] at invalid
      cases invalid
    · exact absurd (h.owns_auxState valid) unowned

/-- What computing the Jacobian leaves. -/
theorem computeJacobian_stays (h : r.AtRest) :
    Ends computeJacobian r
      (fun ok r' ↦ r.Stays r' ∧ (ok = true → r'.isValid .jacobian = true) ∧
        (ok = true → r.isValid .jacobian = false → r'.isValid .residual = true))
      (fun _ r' ↦ r.Stays r') := by
  -- Where the residual is not there, or not with its auxiliary state, it is given up first.
  have outdated : ∀ {r' : Rig δ α n}, (r.isValid .residual = false ∨
      r.store.owners.of .auxState ≠ some r.track.iterate.id) → r.outdated.Stays r' →
      r.Stays r' := by
    intro r' needed stays
    refine ⟨stays.rest, stays.id, stays.x, stays.generation, fun valid ↦ ?_⟩
    rcases needed with invalid | unowned
    · rw [valid] at invalid
      cases invalid
    · exact absurd (h.owns_auxState valid) unowned
  -- A load of the Jacobian leaves the residual and its flag alone.
  have loaded : ∀ {r' : Rig δ α n} {load : Load δ (Mat α n n)} {A : Mat α n n} {o : Overlay α}
      {flag : Validity}, Refreshed r r' → flag ≠ .computing →
      r.Stays (r'.put { r'.store.afterJacobian r'.track.iterate.id load with jacobian := A }
        { r'.track.iterate with
          flags := { residual := r'.track.iterate.flags.residual, jacobian := flag } } o) := by
    intro r' load A o flag base still
    have stays := base.stays h
    refine stays.trans ⟨⟨stays.rest.paired.afterJacobian _, stays.rest.rests.residual, still⟩,
      rfl, rfl, rfl, fun valid ↦ ⟨?_, rfl⟩⟩
    rw [isValid_iff] at valid ⊢
    simpa [Flags.of] using valid
  refine .of_result (computeJacobian_run r) ?_ ?_
  · intro ok r' run
    cases run with
    | known valid =>
      refine ⟨.refl h, fun _ ↦ valid, fun _ invalid ↦ ?_⟩
      rw [valid] at invalid
      cases invalid
    | unrefreshed invalid needed run =>
      exact ⟨outdated needed ((computeResidual_stays h.outdated).ok run).1,
        fun ok ↦ (by cases ok), fun ok ↦ (by cases ok)⟩
    | unloaded invalid base call failed =>
      exact ⟨loaded base (by decide), fun ok ↦ (by cases ok), fun ok ↦ (by cases ok)⟩
    | loaded invalid base call good augmented =>
      refine ⟨loaded base (by decide), fun _ ↦ ?_, fun _ _ ↦ ?_⟩
      · rw [isValid_iff]
        simp [Flags.of, good]
      · rw [isValid_iff]
        simpa [Flags.of] using isValid_iff.1 base.spec.1
  · intro e r' run
    cases run with
    | reentered invalid => exact .refl h
    | refused invalid needed run =>
      exact outdated needed ((computeResidual_stays h.outdated).error run)
    | stuck invalid base => exact loaded base (by decide)

theorem computeResidual_rooted (h : r.Rooted) :
    Ends computeResidual r (fun _ r' ↦ r'.Rooted) (fun _ r' ↦ r'.Rooted) := by
  -- Without its residual the iterate has no Jacobian, and a load of the residual gives it none.
  have still : ∀ {s : Store δ α n} {it : Iterate α n} {o : Overlay α},
      r.isValid .residual = false → s.owners.of .jacobian = r.store.owners.of .jacobian →
      it.id = r.track.iterate.id → it.flags.jacobian = r.track.iterate.flags.jacobian →
      (r.put s it o).Rooted := by
    intro s it o invalid owner id flag valid
    obtain ⟨up, owned⟩ := isValid_iff.1 valid
    have before := h (isValid_iff.2 ⟨flag.symm.trans up, owner.symm.trans (owned.trans (by
      rw [put_iterate, id]))⟩)
    rw [invalid] at before
    cases before
  refine .of_result (computeResidual_run r) ?_ ?_
  · intro ok r' run
    cases run with
    | known => exact h
    | unloaded invalid => exact still invalid (by simp) rfl rfl
    | loaded => exact .of_stale nofun
  · intro stop r' run
    cases run with
    | reentered => exact h
    | refused invalid => exact still invalid rfl rfl rfl
    | stuck invalid => exact still invalid (by simp) rfl rfl

theorem computeJacobian_rooted (h : r.Rooted) :
    Ends computeJacobian r (fun _ r' ↦ r'.Rooted) (fun _ r' ↦ r'.Rooted) := by
  have outdated : r.isValid .jacobian = false →
      Ends computeResidual r.outdated (fun _ r' ↦ r'.Rooted) (fun _ r' ↦ r'.Rooted) :=
    fun invalid ↦ computeResidual_rooted (.of_invalid invalid)
  refine .of_result (computeJacobian_run r) ?_ ?_
  · intro ok r' run
    cases run with
    | known => exact h
    | unrefreshed invalid needed run => exact (outdated invalid).ok run
    | unloaded => exact .of_stale nofun
    | loaded invalid base =>
      obtain ⟨up, owned⟩ := isValid_iff.1 base.spec.1
      exact fun _ ↦ isValid_iff.2 ⟨up, by simpa using owned⟩
  · intro stop r' run
    cases run with
    | reentered => exact h
    | refused invalid needed run => exact (outdated invalid).error run
    | stuck => exact .of_stale nofun

end Rig

end

end OperatingPoint
