import OperatingPoint.Circuit
import OperatingPoint.Linear.FullPivot
import OperatingPoint.Proofs.SettledAnalysis

/-!
# Products with the Jacobian

The matrix that an analysis multiplies with is the one in the store, which strategies shift, clamp
and blend in place, and which is loaded again only if it is not valid.  Between two commands it is
*reliable* nevertheless: whatever the iterate takes for its own belongs to the device layer alone,
at the solution and after the previous point.  Newton's iteration keeps a rig reliable where nothing
is laid over the equations, and a strategy leaves nothing computed when it is taken off.

For a pure device layer, then, whatever has happened before, a product is one with the Jacobian of
the device layer.
-/

set_option autoImplicit false

namespace OperatingPoint

open Step

variable {δ α : Type} [Scalar α] [DirectSolver α] [Device δ α] {n : Nat} {P : PureDevice δ α}
  {layer : δ} {c : Communicator α} {o : SolverOptions α}

/-! ## Reliable rigs -/

/-- A rig between two commands: nothing is laid over the equations, and the iterate can rely on what
it takes for its own. -/
structure Rig.Reliable (P : PureDevice δ α) (layer : δ) (r : Rig δ α n) : Prop where
  laid : r.Lays layer none none false
  sound : ∃ afresh, r.Sound P (P.view r.store.device) afresh

namespace Rig

variable {r r' : Rig δ α n}

/-- Where nothing is computed there is nothing to rely on. -/
theorem Reliable.of_fresh (laid : r.Lays layer none none false)
    (fresh : r.track.iterate.flags = {}) : r.Reliable P layer := by
  have invalid : ∀ q : Quantity, r.track.iterate.isValid r.store q = true → False :=
    fun q valid ↦ by
      have stale : r.isValid q = false := not_isValid_of_fresh fresh q
      exact Bool.noConfusion (valid.symm.trans stale)
  refine ⟨laid, true, laid.isPlain, rfl, ⟨fun valid ↦ ?_, fun valid ↦ ?_, fun valid ↦ ?_,
    fun valid ↦ ?_⟩, fun valid ↦ ?_⟩
  all_goals exact (invalid _ valid).elim

/-- A computation that keeps the promise to its own iterate keeps the rig reliable. -/
theorem Reliable.of_advances {v : P.View} {afresh afresh' : Bool}
    (laid : r'.Lays layer none none false) (advances : r.Advances P v afresh afresh' r') :
    r'.Reliable P layer := by
  refine ⟨laid, afresh', ?_⟩
  rw [advances.sound.view]
  exact advances.sound

/-- Newton's iteration keeps a rig reliable. -/
theorem settles_reliable (P : PureDevice δ α) :
    Settles layer (fun _ ↦ True) (Reliable (n := n) P layer) where
  rest h := h.laid.rest
  move h x := .of_fresh (keeps_lays.move h.laid x) rfl
  residual h := by
    obtain ⟨laid, afresh, sound⟩ := h
    exact ((computeResidual_lays laid).and (computeResidual_advances sound)).mono
      (fun _ _ kept ↦ .of_advances kept.1.1 kept.2)
      fun _ _ kept ↦ ⟨trivial, .of_advances kept.1.1 kept.2⟩
  jacobian h := by
    obtain ⟨laid, afresh, sound⟩ := h
    exact ((computeJacobian_lays laid).and (computeJacobian_advances sound)).mono
      (fun _ _ kept ↦ .of_advances kept.1.1 kept.2)
      fun _ _ kept ↦ ⟨trivial, .of_advances kept.1.1 kept.2⟩
  newton h _ mayReuse _ := by
    obtain ⟨laid, afresh, sound⟩ := h
    exact ((computeNewton_lays laid mayReuse).and (computeNewton_advances sound mayReuse)).mono
      (fun _ _ kept ↦ .of_advances kept.1.1 kept.2)
      fun _ _ kept ↦ ⟨trivial, .of_advances kept.1.1 kept.2⟩
  laid h := ⟨h.laid, fun _ _ ↦ trivial⟩
  blank h := .of_fresh h.laid.toLays h.flags

end Rig

/-! ## Products -/

/-- The Jacobian of the device layer at the solution and after the previous point. -/
def Engine.jacobian (P : PureDevice δ α) (e : Engine δ α n) : Mat α n n :=
  P.jacobian (P.view e.rig.store.device) e.iterate.x e.rig.store.previous

namespace Analysis

variable {a a₀ : Analysis δ α}

/-- Making sure of the Jacobian leaves that of the device layer in the store, and that is the one
that it was before. -/
theorem ensureJacobian_run {e : Engine δ α n} (h : e.rig.Reliable P layer) :
    Ends ensureJacobian e
      (fun _ e' ↦ e'.rig.store.jacobian = e.jacobian P ∧ e'.jacobian P = e.jacobian P)
      (fun _ _ ↦ True) := by
  obtain ⟨laid, afresh, sound⟩ := h
  unfold ensureJacobian
  simp only [ends_bind, Engine.ends_onRig, ends_ite, ends_pure, ends_fault]
  refine (((Rig.computeJacobian_advances sound).and (Rig.computeJacobian_stays laid.rest)).and
    (Rig.computeJacobian_frames e.rig)).mono ?_ fun _ _ _ ↦ trivial
  rintro ok r ⟨⟨advances, stays, valid, -⟩, frames⟩
  have same : ({ e with rig := r } : Engine δ α n).jacobian P = e.jacobian P := by
    unfold Engine.jacobian
    show P.jacobian (P.view r.store.device) r.track.iterate.x r.store.previous = _
    rw [advances.sound.view, stays.x, frames.previous]
    rfl
  refine ⟨fun loaded ↦ ⟨?_, same⟩, fun _ ↦ trivial⟩
  rw [← same, Engine.jacobian, advances.sound.view]
  exact advances.sound.coherent.jacobian (valid loaded)

/-- `r` is what multiplying `v` with the Jacobian of the device layer gives. -/
def Gives (P : PureDevice δ α) (a : Analysis δ α)
    (multiply : {n : Nat} → Mat α n n → Vector α n → Vector α n) (v r : Array α) : Prop :=
  ∃ e, a.engine = some e ∧ ∃ v' : Vector α e.unknowns, v'.toArray = v ∧
    r = (multiply (e.engine.jacobian P) v').toArray

/-- What multiplies with the stored Jacobian multiplies with that of the device layer. -/
theorem Kept.ends_product (h : a.Kept (fun _ ↦ Rig.Reliable P layer) c o)
    {multiply : {n : Nat} → Mat α n n → Vector α n → Vector α n} {v : Array α}
    (apply : {n : Nat} → Iterate α n → Store δ α n → Except Fault (Vector α n))
    (multiplies : ∀ {n : Nat} {it : Iterate α n} {s : Store δ α n} {w : Vector α n},
      apply it s = .ok w → ∃ v' : Vector α n, v'.toArray = v ∧ w = multiply s.jacobian v') :
    Ends (onEngine do
      ensureJacobian
      let e ← get
      return (← Step.orFault (apply e.iterate e.rig.store)).toArray) a
      (fun r a' ↦ a.Gives P multiply v r ∧ a'.Gives P multiply v r) (fun _ _ ↦ True) := by
  refine ends_onEngine (fun e there ↦ ?_) fun _ ↦ trivial
  obtain ⟨mode, -, fits⟩ := h.engine e there
  simp only [ends_bind, ends_get, ends_orFault, ends_pure]
  refine (ensureJacobian_run fits.keeps).mono ?_ fun _ _ _ ↦ trivial
  rintro _ e' ⟨stored, same⟩
  refine ⟨fun w applied ↦ ?_, fun _ _ ↦ trivial⟩
  obtain ⟨v', entries, rfl⟩ := multiplies applied
  rw [stored]
  refine ⟨⟨e, there, v', entries, rfl⟩, ⟨_, rfl, v', entries, ?_⟩⟩
  rw [same]

omit [Scalar α] [Device δ α] in
/-- Whatever an iterate multiplies with its Jacobian has the entries that were given. -/
theorem exists_of_product {it : Iterate α n} {s : Store δ α n} {v : Array α} {length : Nat}
    {multiply : Vector α n → Vector α n} {w : Vector α n}
    (product : (do
      it.require s .jacobian
      let v ← Store.sized v
      if length = n then .ok (multiply v) else .error (.dimension n length)) = .ok w) :
    ∃ v' : Vector α n, v'.toArray = v ∧ w = multiply v' := by
  obtain ⟨_, _, product⟩ := bind_eq_ok.1 product
  obtain ⟨v', entries, product⟩ := bind_eq_ok.1 product
  refine ⟨v', ?_, ?_⟩
  · unfold Store.sized at entries
    split at entries
    · cases entries
      rfl
    · cases entries
  · split at product
    · cases product
      rfl
    · cases product

/-- **Products.**  Wherever a history of an analysis of a pure device layer leads, whatever has
failed on the way: a product is one with the Jacobian of the device layer, at the solution and after
the previous point as they are before it and after it, and so is one with the transpose. -/
theorem products_of_history (P : PureDevice δ α) (made : new layer c o = .ok a₀)
    (history : List (Request α)) (v : Array α) (length : Nat) :
    Ends (perform (.applyJacobian v length)) (a₀.run history)
      (fun r a ↦ (a₀.run history).Gives P Mat.mulVec v r ∧ a.Gives P Mat.mulVec v r)
      (fun _ _ ↦ True) ∧
    Ends (perform (.applyTranspose v length)) (a₀.run history)
      (fun r a ↦ (a₀.run history).Gives P Mat.transposeMulVec v r ∧
        a.Gives P Mat.transposeMulVec v r)
      (fun _ _ ↦ True) := by
  have settles : ∀ n, Rig.Settles layer (fun _ ↦ True) (Rig.Reliable (n := n) P layer) :=
    fun _ ↦ Rig.settles_reliable P
  have kept : (a₀.run history).Kept (fun _ ↦ Rig.Reliable P layer) c o :=
    run_kept settles (fun _ _ _ _ ↦ .inl trivial) (kept_of_new settles made) history
  constructor
  · refine ends_bind.2 (ends_lift.2 ⟨fun _ _ ↦ ?_, fun _ _ ↦ trivial⟩)
    exact kept.ends_product (fun it s ↦ it.applyJacobian s v length) exists_of_product
  · refine ends_bind.2 (ends_lift.2 ⟨fun _ _ ↦ ?_, fun _ _ ↦ trivial⟩)
    exact kept.ends_product (fun it s ↦ it.applyTranspose s v length) exists_of_product

/-- A circuit with a square in it. -/
def squared : Circuit :=
  { Circuit.bare with
    terms := [{ row := 0, kind := .pow, exponent := 2 },
      { row := 0, kind := .const, scale := -4.0 }] }

/-- Options for a homotopy at the operating point. -/
def blending : SolverOptions Float :=
  let standard : SolverOptions Float := .standard
  { standard with dcOp := { standard.dcOp with
    continuation := { standard.dcOp.continuation with solveType := .artificialHomotopy } } }

-- What is said of the analysis is not to be compared by carrying out the history.
seal Ends in
/-- Products after a homotopy from one, at its solution moved away to three. -/
theorem products_squared :
    let history : List (Request Float) :=
      [⟨_, .setSolution #[1.0]⟩, ⟨_, .solve⟩, ⟨_, .applyJacobian #[1.0] 1⟩,
        ⟨_, .setSolution #[3.0]⟩]
    ∃ a₀ : Analysis Circuit Float, new squared .serial blending = .ok a₀ ∧
      0 < (a₀.run history).lastCode ∧
      Ends (perform (.applyJacobian #[0.5] 1)) (a₀.run history)
        (fun r _ ↦ r = #[3.0] ∧ (a₀.run history).Gives Circuit.pure Mat.mulVec #[0.5] r)
        (fun _ _ ↦ False) := by
  intro history
  have ran : Yields
      (new squared .serial blending : Except Stop (Analysis Circuit Float))
      fun a₀ ↦ 0 < (a₀.run history).lastCode ∧
        Ends (perform (.applyJacobian #[0.5] 1)) (a₀.run history) (fun r _ ↦ r = #[3.0])
          fun _ _ ↦ False := by
    decide +kernel
  obtain ⟨a₀, made, success, run⟩ := ran.exists
  refine ⟨a₀, made, success, ?_⟩
  exact (run.and (products_of_history Circuit.pure made history #[0.5] 1).1).mono
    (fun _ _ product ↦ ⟨product.1, product.2.1⟩) fun _ _ stopped ↦ stopped.1

end Analysis

end OperatingPoint
