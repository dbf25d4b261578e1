import OperatingPoint.Circuit
import OperatingPoint.Linear.FullPivot
import OperatingPoint.Proofs.Coherence
import OperatingPoint.Proofs.LinearSolve
import OperatingPoint.Store.Command

/-!
# Reusing factors cannot be noticed

A workspace keeps what it has built from a matrix, and a store remembers for whom.  When a setup is
to be had for reuse is spread over three flags in two structures: `factorOwner` in the store, and
`current` and `preconditionerCurrent` in the workspace.  Whatever happens to the store, a setup that
is current for an iterate is the one that would be built from the matrix that is stored now, so that
a solve with it and a solve that starts over are the same step, with the same answer and the same
store after it.

Besides the commands of a store its histories have edits of any kind by the owner of what is edited,
and changes of the device layer behind the store.  The invariant is `Store.Faithful`.
-/

set_option autoImplicit false

namespace OperatingPoint

open Step

variable {α : Type} [Scalar α] [DirectSolver α] {n : Nat}

/-! ## What a workspace keeps -/

/-- What a linear solver builds from a matrix before it solves with it. -/
inductive LinearSetup (α : Type) [DirectSolver α] where
  | factored (factors : FactorCache α)
  | preconditioned (pc : Option (Preconditioner α))

/-- A preconditioner that is set up on a matrix, if the kind has one at all. -/
def Preconditioner.build (kind : PreconditionerKind) (A : Table α) :
    Except Stop (Option (Preconditioner α)) :=
  match fresh kind with
  | none => .ok none
  | some pc => (pc.setup A).map some

omit [DirectSolver α] in
theorem Preconditioner.build_none {kind : PreconditionerKind} {A : Table α}
    (h : (fresh kind : Option (Preconditioner α)) = none) : build kind A = .ok none := by
  rw [build, h]

omit [DirectSolver α] in
theorem Preconditioner.build_some {kind : PreconditionerKind} {A : Table α} {pc : Preconditioner α}
    (h : fresh kind = some pc) : build kind A = (pc.setup A).map some := by
  rw [build, h]

/-- The setup for a matrix, built from nothing. -/
def LinearOptions.build (o : LinearOptions α) (A : Table α) : Except Stop (LinearSetup α) :=
  match o.kind with
  | .directLu => (FactorCache.factor A).map .factored
  | .gmres .. => (Preconditioner.build o.preconditioner A).map .preconditioned

namespace Workspace

/-- The setup at hand. -/
def kept (w : Workspace α) : LinearSetup α :=
  match w.options.kind with
  | .directLu => .factored w.factors
  | .gmres .. => .preconditioned w.preconditioner

/-- Whether a solve with reuse takes the setup at hand. -/
def reuses (w : Workspace α) : Bool :=
  match w.options.kind with
  | .directLu => w.current
  | .gmres .. => w.preconditionerCurrent

variable {w : Workspace α} {A : Table α}

/-- A setup that a solve would take is the one that would be built from `A`. -/
structure Fits (w : Workspace α) (A : Table α) : Prop where
  built : w.reuses = true → w.options.build A = .ok w.kept
  reuses : w.current = true → w.reuses = true

/-- A direct solver fits if its factors do. -/
theorem fits_direct (kind : w.options.kind = .directLu) :
    w.Fits A ↔ (w.current = true → FactorCache.factor A = .ok w.factors) := by
  have reuses : w.reuses = w.current := by rw [Workspace.reuses, kind]
  have built : w.options.build A = .ok w.kept ↔ FactorCache.factor A = .ok w.factors := by
    rw [LinearOptions.build, kept, kind, map_eq_ok]
    simp
  exact ⟨fun h ↦ by rw [← built, ← reuses]; exact h.built,
    fun h ↦ ⟨by rw [built, reuses]; exact h, by rw [reuses]; exact id⟩⟩

/-- An iterative solver fits if its preconditioner does. -/
theorem fits_iterative {restart maxIters : Nat} {tol : α}
    (kind : w.options.kind = .gmres restart tol maxIters) :
    w.Fits A ↔ (w.preconditionerCurrent = true →
        Preconditioner.build w.options.preconditioner A = .ok w.preconditioner) ∧
      (w.current = true → w.preconditionerCurrent = true) := by
  have reuses : w.reuses = w.preconditionerCurrent := by rw [Workspace.reuses, kind]
  have built : w.options.build A = .ok w.kept ↔
      Preconditioner.build w.options.preconditioner A = .ok w.preconditioner := by
    rw [LinearOptions.build, kept, kind, map_eq_ok]
    simp
  exact ⟨fun h ↦ ⟨by rw [← built, ← reuses]; exact h.built, by rw [← reuses]; exact h.reuses⟩,
    fun h ↦ ⟨by rw [built, reuses]; exact h.1, by rw [reuses]; exact h.2⟩⟩

theorem Fits.of_factored (kind : w.options.kind = .directLu)
    (factored : FactorCache.factor A = .ok w.factors) : w.Fits A :=
  (fits_direct kind).2 fun _ ↦ factored

theorem Fits.of_preconditioned {restart maxIters : Nat} {tol : α}
    (kind : w.options.kind = .gmres restart tol maxIters) (current : w.preconditionerCurrent = true)
    (built : Preconditioner.build w.options.preconditioner A = .ok w.preconditioner) : w.Fits A :=
  (fits_iterative kind).2 ⟨fun _ ↦ built, fun _ ↦ current⟩

/-- What is stale fits any matrix. -/
theorem Fits.of_stale (current : w.current = false)
    (preconditionerCurrent : w.preconditionerCurrent = false) : w.Fits A := by
  have reuses : w.reuses = false := by
    rw [Workspace.reuses]
    split
    · exact current
    · exact preconditionerCurrent
  exact ⟨by simp [reuses], by simp [current]⟩

/-! ### The same solve with or without reuse -/

section

variable {b : Vector α n}

/-- With the factors of `A` at hand a direct solve does the same whether or not it factors. -/
theorem solveDirect_of_factored (factored : FactorCache.factor A = .ok w.factors) (reuse : Bool) :
    solveDirect A b reuse w =
      (do return (← Step.lift (w.factors.solve b), SolveStats.direct) : Step _ _) w := by
  rw [solveDirect, factored, get_bind]
  split
  · rfl
  · rfl

/-- With the preconditioner for `A` at hand an iterative solve does the same whether or not it sets
one up. -/
theorem solveIterative_of_built {restart maxIters : Nat} {tol : α}
    (current : w.preconditionerCurrent = true)
    (built : Preconditioner.build w.options.preconditioner A = .ok w.preconditioner)
    (reuse : Bool) :
    solveIterative restart tol maxIters A b reuse w =
      (Step.lift ((Gmres.new restart tol maxIters).solveTable A w.preconditioner b (zeros α n)) :
        Step _ _) w := by
  obtain ⟨options, factors, preconditioner, _, currency, last⟩ := w
  cases current
  dsimp only at built
  rw [solveIterative, get_bind]
  cases fresh : (Preconditioner.fresh options.preconditioner : Option (Preconditioner α)) with
  | none =>
    rw [Preconditioner.build_none fresh] at built
    cases built
    cases reuse with
    | false => rfl
    | true => rfl
  | some pc =>
    rw [Preconditioner.build_some fresh] at built
    obtain ⟨pc', setup, same⟩ := map_eq_ok.1 built
    cases same
    cases reuse with
    | false =>
      simp only [setup]
      rfl
    | true => rfl

/-- A solve that may reuse a setup for `A` does the same as one that may not. -/
theorem Fits.solve_reuse (h : w.Fits A) : solve A b true w = solve A b false w := by
  unfold solve
  split
  · rfl
  simp only [get_bind]
  cases kind : w.options.kind with
  | directLu =>
    refine bind_congr_at ?_
    cases current : w.current with
    | false => rw [solveDirect, solveDirect, get_bind, get_bind, current]; rfl
    | true =>
      have factored := (fits_direct kind).1 h current
      rw [solveDirect_of_factored factored, solveDirect_of_factored factored]
  | gmres restart tol maxIters =>
    refine bind_congr_at ?_
    cases current : w.preconditionerCurrent with
    | false => rw [solveIterative, solveIterative, get_bind, get_bind, current]; rfl
    | true =>
      have built := ((fits_iterative kind).1 h).1 current
      rw [solveIterative_of_built current built, solveIterative_of_built current built]

theorem Fits.ends_solve_anew (h : w.Fits A) :
    Ends (solve A b false) w (fun _ w' ↦ w'.Fits A) (fun _ w' ↦ w'.Fits A) := by
  unfold solve solveDirect solveIterative
  cases kind : w.options.kind with
  | directLu =>
    simp only [kind, ends_lift, ends_bind, ends_get, ends_ite, ends_modify, ends_pure, ends_fault,
      Bool.false_and, Bool.false_eq_true, false_implies, not_false_eq_true, true_implies, true_and]
    refine ⟨fun _ ↦ h, fun _ ↦ ⟨fun factors factored ↦ ?_, fun _ _ ↦ h⟩⟩
    exact ⟨fun _ _ ↦ .of_factored kind factored, fun _ _ ↦ .of_factored kind factored⟩
  | gmres restart tol maxIters =>
    have built : ∀ pc, Preconditioner.build w.options.preconditioner A = .ok pc →
        ∀ current last, Fits { w with
          preconditioner := pc
          preconditionerCurrent := true
          current := current
          last := last } A := fun pc built _ _ ↦ .of_preconditioned kind rfl built
    cases fresh : (Preconditioner.fresh w.options.preconditioner : Option (Preconditioner α)) with
    | none =>
      have none := built _ (Preconditioner.build_none fresh)
      simp only [kind, fresh, ends_lift, ends_bind, ends_get, ends_ite, ends_modify, ends_pure,
        ends_fault, Bool.false_and, Bool.false_eq_true, false_implies, not_false_eq_true,
        true_implies, true_and]
      exact ⟨fun _ ↦ h, fun _ ↦ ⟨fun _ _ ↦ none _ _, fun _ _ ↦ none _ _⟩⟩
    | some pc =>
      rw [Preconditioner.build_some fresh] at built
      simp only [kind, fresh, ends_lift, ends_bind, ends_get, ends_ite, ends_modify, ends_pure,
        ends_fault, Bool.false_and, Bool.false_eq_true, false_implies, not_false_eq_true,
        true_implies, true_and]
      refine ⟨fun _ ↦ h, fun _ ↦ ⟨fun pc' setup ↦ ?_, fun e setup ↦ ?_⟩⟩
      · have some := built (some pc') (map_eq_ok.2 ⟨pc', setup, rfl⟩)
        exact ⟨fun _ _ ↦ some _ _, fun _ _ ↦ some _ _⟩
      · -- A preconditioner that cannot be set up was not current before either.
        obtain ⟨old, current⟩ := (fits_iterative kind).1 h
        rw [Preconditioner.build_some fresh, setup] at old
        have stale : w.preconditionerCurrent = false :=
          Bool.eq_false_iff.2 fun up ↦ by cases old up
        exact .of_stale (Bool.eq_false_iff.2 fun up ↦ by simp [current up] at stale) stale

/-- A solve leaves a setup for its matrix, however it ends. -/
theorem Fits.ends_solve (h : w.Fits A) (reuse : Bool) :
    Ends (solve A b reuse) w (fun _ w' ↦ w'.Fits A) (fun _ w' ↦ w'.Fits A) := by
  cases reuse with
  | false => exact h.ends_solve_anew
  | true =>
    rw [Ends, h.solve_reuse]
    exact h.ends_solve_anew

end

end Workspace

/-! ## What a store keeps -/

namespace Store

variable {δ : Type} {linear : LinearOptions α} {s : Store δ α n} {id : OwnerId}

/-- A setup that the workspace would take again is the one for the stored matrix, and whoever owns
the setup owns the matrix. -/
structure Faithful (linear : LinearOptions α) (s : Store δ α n) : Prop where
  options : s.workspace.options = linear
  fits : s.workspace.Fits (Table.ofSquare s.jacobian)
  owner : ∀ id, s.factorOwner = some id → s.owners.of .jacobian = some id

theorem new_faithful (device : δ) (communicator : Communicator α) (linear : LinearOptions α)
    (n : Nat) : (new device communicator linear n).Faithful linear where
  options := rfl
  fits := .of_stale rfl rfl
  owner _ := nofun

namespace Faithful

/-- A setup that is current for an iterate is the one that would be built from the stored matrix. -/
theorem build (h : s.Faithful linear) (current : s.factorsCurrentFor id = true) :
    linear.build (Table.ofSquare s.jacobian) = .ok s.workspace.kept := by
  rw [factorsCurrentFor, Bool.and_eq_true] at current
  rw [← h.options]
  exact h.fits.built (h.fits.reuses current.2)

/-- To solve with a setup that is current for an iterate is to start over. -/
theorem solveNewton_reuse (h : s.Faithful linear) (current : s.factorsCurrentFor id = true) :
    solveNewton id true s = solveNewton id false s := by
  have owned : s.owns id Quantity.jacobian = true := by
    rw [factorsCurrentFor, Bool.and_eq_true, beq_iff_eq] at current
    exact owns_iff.2 (h.owner id current.1)
  have attempted (b : Vector α n) :
      (Step.attempt (Step.zoom Store.workspace (fun s w ↦ { s with workspace := w })
        (Workspace.solve (Table.ofSquare s.jacobian) b true)) : Step (Store δ α n) _) s =
      Step.attempt (Step.zoom Store.workspace (fun s w ↦ { s with workspace := w })
        (Workspace.solve (Table.ofSquare s.jacobian) b false)) s := by
    simp only [Step.attempt, Step.zoom, h.fits.solve_reuse]
  rw [solveNewton, solveNewton, get_bind, get_bind, current, owned]
  split
  · simp only [Bool.true_and, Bool.false_and, Bool.or_true, if_pos]
    exact bind_congr_at (attempted _)
  · rfl

/-- The linear solve leaves a setup for the stored matrix. -/
theorem solved (h : s.Faithful linear) (reuse : Bool) :
    Ends (Workspace.solve (Table.ofSquare s.jacobian) (rightHandSide s.residual) reuse) s.workspace
      (fun _ w ↦ w.options = linear ∧ w.Fits (Table.ofSquare s.jacobian))
      (fun _ w ↦ w.options = linear ∧ w.Fits (Table.ofSquare s.jacobian)) :=
  ((Workspace.ends_solve_options _ _ reuse s.workspace).and (h.fits.ends_solve reuse)).mono
    (fun _ _ h' ↦ ⟨h'.1.trans h.options, h'.2⟩) fun _ _ h' ↦ ⟨h'.1.trans h.options, h'.2⟩

/-- A setup is for the owner of the matrix, or it was already. -/
theorem owns_jacobian (h : s.Faithful linear) {reuse : Bool}
    (ready : (reuse && s.factorsCurrentFor id) = true ∨ s.owners.of .jacobian = some id) :
    s.owners.of .jacobian = some id := by
  rcases ready with cached | owned
  · rw [Bool.and_eq_true, factorsCurrentFor, Bool.and_eq_true, beq_iff_eq] at cached
    exact h.owner id cached.2.1
  · exact owned

theorem preserves_solveNewton (id : OwnerId) (reuse : Bool) :
    Preserves (solveNewton id reuse) (Faithful (δ := δ) (n := n) linear) := by
  intro s h
  refine .of_result (solveNewton_run s id reuse) (fun b t run ↦ ?_) (fun e t run ↦ ?_)
  · cases run with
    | solved _ ready run =>
      have left := (h.solved _).ok run
      refine ⟨left.1, left.2, fun id' same ↦ ?_⟩
      cases same
      rw [afterSolve_owner, if_neg (by decide)]
      exact h.owns_jacobian ready
    | refused run =>
      have left := (h.solved _).error run
      refine ⟨left.1, left.2, fun id' same ↦ ?_⟩
      rw [afterRefusal_owner, if_neg (by decide)]
      exact h.owner id' same
  · cases run with
    | noResidual => exact h
    | noJacobian => exact h
    | stopped _ run =>
      have left := (h.solved _).error run
      exact ⟨left.1, left.2, h.owner⟩

/-! ### Commands -/

/-- What moves owners moves the owner of the setup along with that of the matrix. -/
theorem moved (h : s.Faithful linear) (source : OwnerId) (target : Option OwnerId) :
    Faithful linear { s with
      owners := s.owners.putAll (s.ownedBy source) target
      factorOwner := if s.factorOwner = some source then target else s.factorOwner } := by
  refine ⟨h.options, h.fits, fun id same ↦ ?_⟩
  dsimp only at same
  rw [Owners.of_putAll]
  split at same
  · rename_i own
    rw [if_pos (Spares.mem_ownedBy.2 (h.owner source own)), same]
  · rename_i other
    have owned := h.owner id same
    rw [if_neg (fun mem ↦ ?_), owned]
    exact other (same.trans (owned.symm.trans (Spares.mem_ownedBy.1 mem)))

theorem transfer (h : s.Faithful linear) (source target : OwnerId) :
    (s.transfer source target).Faithful linear :=
  h.moved source (some target)

theorem release (h : s.Faithful linear) (id : OwnerId) : (s.release id).Faithful linear :=
  h.moved id none

theorem setPrevious (h : s.Faithful linear) (x : Vector α n) :
    (s.setPrevious x).Faithful linear :=
  ⟨h.options, h.fits, fun _ ↦ nofun⟩

/-- Other quantities than the matrix may change and may change hands. -/
theorem of_same (h : s.Faithful linear) {s' : Store δ α n} (workspace : s'.workspace = s.workspace)
    (jacobian : s'.jacobian = s.jacobian) (factorOwner : s'.factorOwner = s.factorOwner)
    (owner : s'.owners.of .jacobian = s.owners.of .jacobian) : s'.Faithful linear where
  options := by rw [workspace, h.options]
  fits := by
    rw [workspace, jacobian]
    exact h.fits
  owner := by
    rw [factorOwner, owner]
    exact h.owner

theorem preserves_editResidual {β : Type} (id : OwnerId)
    (edit : Vector α n → Except Stop (β × Vector α n)) :
    Preserves (editResidual (δ := δ) id edit) (Faithful linear) := by
  intro s h
  by_cases owned : s.owns id Quantity.residual = true
  · exact (ends_editResidual (owns_iff.1 owned)).2
      ⟨fun _ _ _ ↦ h.of_same rfl rfl rfl rfl, fun _ _ ↦ h⟩
  · simp [editResidual, owned, h]

theorem preserves_editJacobian {β : Type} (id : OwnerId)
    (edit : Mat α n n → Except Stop (β × Mat α n n)) :
    Preserves (editJacobian (δ := δ) id edit) (Faithful linear) := by
  intro s h
  by_cases owned : s.owns id Quantity.jacobian = true
  · exact (ends_editJacobian (owns_iff.1 owned)).2
      ⟨fun _ _ _ ↦ ⟨h.options, .of_stale rfl rfl, h.owner⟩,
        fun _ _ ↦ ⟨h.options, .of_stale rfl rfl, h.owner⟩⟩
  · simp [editJacobian, owned, h]

theorem preserves_identify (id : OwnerId) :
    Preserves (identify (δ := δ) (α := α) (n := n) id) (Faithful linear) :=
  .bind .get fun _ ↦ .ite (.pure _) (.throw _)

theorem preserves_computeGradient (id : OwnerId) :
    Preserves (computeGradient (δ := δ) id) (Faithful (α := α) (n := n) linear) := by
  intro s h
  unfold computeGradient
  simp only [ends_bind, ends_get, List.forIn_cons, List.forIn_nil, ends_ite, ends_pure, ends_fault,
    ends_set, claim]
  exact ⟨fun _ ↦ ⟨fun _ ↦ h.of_same rfl rfl rfl (by simp), fun _ ↦ h⟩, fun _ ↦ h⟩

variable [Device δ α]

theorem preserves_loadResidual (id : OwnerId) (x : Vector α n) :
    Preserves (loadResidual (δ := δ) id x) (Faithful linear) := fun _ h ↦
  ends_loadResidual.2 (h.of_same rfl rfl rfl (by simp))

theorem preserves_loadJacobian (id : OwnerId) (x : Vector α n) :
    Preserves (loadJacobian (δ := δ) id x) (Faithful linear) := fun _ h ↦
  ends_loadJacobian.2 ⟨fun _ ↦ ⟨h.options, .of_stale rfl rfl, fun _ ↦ nofun⟩, fun _ ↦ h⟩

theorem preserves_perform {β : Type} (c : Command α β) :
    Preserves (perform c) (Faithful (δ := δ) (n := n) linear) := by
  cases c with
  | register => exact fun s h ↦ ends_modifyGet.2 (h.of_same rfl rfl rfl rfl)
  | setPrevious x => exact .bind (.orFault _) fun x ↦ .modify fun s h ↦ h.setPrevious x
  | owner qs => exact .bind .get fun _ ↦ .lift _
  | owns id qs => exact .bind (preserves_identify id) fun _ ↦ .bind .get fun _ ↦ .pure _
  | ownedBy id => exact .bind (preserves_identify id) fun _ ↦ .bind .get fun _ ↦ .pure _
  | transfer source target =>
    refine .bind (preserves_identify source) fun _ ↦ .bind (preserves_identify target) fun _ ↦ ?_
    exact fun s h ↦ h.transfer source target
  | release id =>
    exact .bind (preserves_identify id) fun _ ↦ .modify fun s h ↦ h.release id
  | loadResidual id x =>
    exact .bind (preserves_identify id) fun _ ↦
      .bind (.orFault _) fun x ↦ preserves_loadResidual id x
  | loadJacobian id x =>
    exact .bind (preserves_identify id) fun _ ↦
      .bind (.orFault _) fun x ↦ preserves_loadJacobian id x
  | solveNewton id reuse =>
    exact .bind (preserves_identify id) fun _ ↦ preserves_solveNewton id reuse
  | computeGradient id =>
    exact .bind (preserves_identify id) fun _ ↦ preserves_computeGradient id
  | writeResidual id i v =>
    exact .bind (preserves_identify id) fun _ ↦ preserves_editResidual id _
  | writeJacobian id i j v =>
    exact .bind (preserves_identify id) fun _ ↦ preserves_editJacobian id _
  | applyJacobian v length =>
    exact .bind (.lift _) fun _ ↦ .bind .get fun _ ↦ .bind (.orFault _) fun _ ↦ .pure _
  | applyTranspose v length =>
    exact .bind (.lift _) fun _ ↦ .bind .get fun _ ↦ .bind (.orFault _) fun _ ↦ .pure _

end Faithful

/-! ## Histories -/

/-- What can happen to a store: a command, an edit of any kind by whoever claims to own what is
edited, or a change of the device layer behind the store. -/
inductive Event (δ α : Type) (n : Nat) : Type 1 where
  | command {β : Type} (c : Command α β)
  | editResidual (id : OwnerId) (edit : Vector α n → Except Stop (Unit × Vector α n))
  | editJacobian (id : OwnerId) (edit : Mat α n n → Except Stop (Unit × Mat α n n))
  | changeDevice (change : δ → δ)

variable [Device δ α]

/-- The store after an event, whether or not it has stopped. -/
def follow (s : Store δ α n) : Event δ α n → Store δ α n
  | .command c => Step.after (perform c) s
  | .editResidual id edit => Step.after (Store.editResidual id edit) s
  | .editJacobian id edit => Step.after (Store.editJacobian id edit) s
  | .changeDevice change => { s with device := change s.device }

/-- The store after a history. -/
def run (s : Store δ α n) (history : List (Event δ α n)) : Store δ α n := history.foldl follow s

theorem Faithful.follow (h : s.Faithful linear) (event : Event δ α n) :
    (s.follow event).Faithful linear := by
  cases event with
  | command c => exact (preserves_perform c s h).after
  | editResidual id edit => exact (preserves_editResidual id edit s h).after
  | editJacobian id edit => exact (preserves_editJacobian id edit s h).after
  | changeDevice change => exact h.of_same rfl rfl rfl rfl

theorem Faithful.run (h : s.Faithful linear) (history : List (Event δ α n)) :
    (s.run history).Faithful linear := by
  induction history generalizing s with
  | nil => exact h
  | cons event rest ih => exact ih (h.follow event)

/-- Whatever has happened to a store, factors or a preconditioner that it takes for those of an
iterate are the ones that would be built from the matrix it holds, and a solve that reuses them is
the same step as one that starts over: it has the same answer and leaves the same Newton direction,
and the same store altogether. -/
theorem reuse_of_history (device : δ) (communicator : Communicator α) (linear : LinearOptions α)
    (history : List (Event δ α n)) (id : OwnerId) :
    let s := (new device communicator linear n).run history
    s.factorsCurrentFor id = true →
      linear.build (Table.ofSquare s.jacobian) = .ok s.workspace.kept ∧
        solveNewton id true s = solveNewton id false s := by
  intro s current
  have faithful : s.Faithful linear := (new_faithful device communicator linear n).run history
  exact ⟨faithful.build current, faithful.solveNewton_reuse current⟩

/-- Factors that have changed hands, with a residual that was loaded at another solution since. -/
theorem reuse_bare :
    let history : List (Event Circuit Float 1) := [.command .register, .command .register,
      .command (.loadResidual 1 #[1.0]), .command (.loadJacobian 1 #[1.0]),
      .editJacobian 1 fun A ↦ .ok ((), A), .command (.solveNewton 1 false),
      .command (.transfer 1 2), .command (.loadResidual 2 #[2.0])]
    let s := (new Circuit.bare .serial .standard 1).run history
    s.factorsCurrentFor 2 = true ∧
      LinearOptions.standard.build (Table.ofSquare s.jacobian) = .ok s.workspace.kept ∧
      solveNewton 2 true s = solveNewton 2 false s := by
  intro history s
  have current : s.factorsCurrentFor 2 = true := by decide +kernel
  exact ⟨current, reuse_of_history Circuit.bare .serial .standard history 2 current⟩

end Store

end OperatingPoint
