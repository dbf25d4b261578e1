import OperatingPoint.Proofs.Endings
import OperatingPoint.Linear.Workspace

/-!
# What a linear solve depends on, and how it stops

A solve that does not reuse what is kept in a workspace gives the answer of a solver that keeps
nothing: `Workspace.answer`.

On a square matrix with a right-hand side of its size a solve comes to its end or stops with a
fault.  There is one exception.  A cycle of GMRES that is too long to be held is a breach, and
nothing about the matrix can prevent it.
-/

set_option autoImplicit false

namespace OperatingPoint

open Step

/-- Whether the solver can hold what it needs: a cycle of full length, where there are cycles. -/
def LinearSolverKind.holdsCycle {α : Type} : LinearSolverKind α → Bool
  | .directLu => true
  | .gmres restart _ _ => fitsBlock (3 * (max restart 1 + 1))

/-- How a linear solve may stop: with a fault, or because a cycle cannot be held. -/
inductive Stop.OfSolver (holds : Bool) : Stop → Prop
  | fault (cause : Fault) : OfSolver holds (.fault cause)
  | breach (h : holds = false) : OfSolver holds .breach

variable {α : Type} {n : Nat} {holds : Bool}

theorem reserve_stops {Q : Stop → Prop} {words : Nat} (unheld : fitsBlock words = false → Q .breach) :
    StopsOnly Q (reserve words) := by
  unfold reserve
  split
  · exact .ok _
  · rename_i unfit
    exact .error (unheld (Bool.eq_false_iff.2 unfit))

/-! ## Preconditioners -/

section

variable [Scalar α]

/-- An incomplete factorization stops at a pivot that vanishes. -/
theorem incompleteFactors_stops {Q : Stop → Prop} (pivot : ∀ k : Fin n, Q (.fault (.zeroPivot k)))
    (A : Mat α n n) : StopsOnly Q (incompleteFactors A) := by
  refine .foldlM (fun i _ done ↦ .bind ?_ fun r _ ↦ .ok _) A
  refine .bind (.foldlM (fun k _ r ↦ ?_) _) fun r _ ↦ ?_
  · unfold eliminate
    split
    · exact .ok r
    · split
      · exact .error (pivot k)
      · exact .ok _
  · split
    · exact .error (pivot i)
    · exact .ok r

namespace Preconditioner

theorem setup_stops {Q : Stop → Prop} (pivot : ∀ k : Fin n, Q (.fault (.zeroPivot k))) (A : Mat α n n)
    (p : Preconditioner α) : StopsOnly Q (p.setup (Table.ofSquare A)) := by
  cases p with
  | diagonal inverses => exact .ok _
  | incomplete factors =>
    have square : (Table.ofSquare A).rows ≤ (Table.ofSquare A).columns := Nat.le_refl n
    rw [setup, dif_pos square]
    exact .bind (incompleteFactors_stops pivot _) fun F _ ↦ .ok _

theorem apply_stops (x : Vector α n) (p : Preconditioner α) :
    StopsOnly (Stop.OfSolver holds) (p.apply x) := by
  unfold apply
  split
  · split
    · exact .ok _
    · exact .error (.fault _)
  · split
    · exact .ok _
    · exact .error (.fault _)

end Preconditioner

/-! ## Restarted GMRES -/

namespace Gmres

section

variable {Q : Stop → Prop} {pc : Option (Preconditioner α)}
  (applies : ∀ p, pc = some p → ∀ x : Vector α n, StopsOnly Q (p.apply x))

include applies

theorem extend_stops (A : Mat α n n) (cycle : Cycle α n) : StopsOnly Q (cycle.extend A pc) := by
  unfold Cycle.extend
  cases pc with
  | some p => exact .bind (applies p rfl _) fun z _ ↦ .ok _
  | none => exact .ok _

theorem iterate_stops (g : Gmres α) (A : Mat α n n) (first : α) (budget iteration : Nat)
    (cycle : Cycle α n) : StopsOnly Q (g.iterate A pc first budget iteration cycle) := by
  induction budget generalizing iteration cycle with
  | zero => exact .ok _
  | succ budget ih =>
    rw [iterate]
    refine .bind (extend_stops applies A cycle) fun p _ ↦ ?_
    dsimp only
    split
    · exact .ok _
    · exact ih _ _

theorem cycles_stops {g : Gmres α} (unheld : fitsBlock (3 * (g.restart + 1)) = false → Q .breach)
    (A : Mat α n n) (b : Vector α n) (first : α) (fuel iteration : Nat) (x : Vector α n)
    (stats : SolveStats α) : StopsOnly Q (g.cycles A pc b first fuel iteration x stats) := by
  induction fuel generalizing iteration x stats with
  | zero => exact .ok _
  | succ fuel ih =>
    rw [cycles]
    split
    · refine .bind (reserve_stops unheld) fun _ _ ↦ ?_
      refine .bind (iterate_stops applies g A first _ _ _) fun p _ ↦ ?_
      dsimp only
      split
      · exact .ok _
      · exact ih _ _ _
    · exact .ok _

/-- On a square matrix an iterative solve stops where its preconditioner does, or because a cycle
cannot be held. -/
theorem solveTable_stops {restart maxIters : Nat} {tol : α}
    (unheld : (LinearSolverKind.gmres restart tol maxIters).holdsCycle = false → Q .breach)
    (A : Mat α n n) (b x : Vector α n) :
    StopsOnly Q ((new restart tol maxIters).solveTable (Table.ofSquare A) pc b x) := by
  rw [solveTable, dif_pos rfl, Table.square?_ofSquare]
  unfold solve
  dsimp only
  split
  · exact .ok _
  · exact cycles_stops (g := new restart tol maxIters) applies unheld A b _ _ _ _ _

end

end Gmres

end

/-! ## The workspace -/

variable [DirectSolver α]

theorem FactorCache.solve_stops (c : FactorCache α) (b : Vector α n) :
    StopsOnly (Stop.OfSolver holds) (c.solve b) := by
  unfold FactorCache.solve
  split
  · exact .error (.fault _)
  · split
    · exact .ok _
    · exact .error (.fault _)

variable [Scalar α]

theorem FactorCache.factor_stops (A : Table α) :
    StopsOnly (Stop.OfSolver holds) (FactorCache.factor A) := by
  unfold FactorCache.factor
  split
  · exact .ok _
  · exact .error (.fault _)

namespace Workspace

/-- The answer of a linear solver that keeps nothing from earlier solves. -/
def answer (options : LinearOptions α) (A : Mat α n n) (b : Vector α n) :
    Except Stop (Vector α n × SolveStats α) :=
  Step.value (solve (Table.ofSquare A) b false) { options := options }

/-- A solve leaves the options alone. -/
theorem ends_solve_options (A : Table α) (b : Vector α n) (reuse : Bool) (w : Workspace α) :
    Ends (solve A b reuse) w (fun _ w' ↦ w'.options = w.options)
      (fun _ w' ↦ w'.options = w.options) := by
  unfold solve solveDirect solveIterative
  cases kind : w.options.kind with
  | directLu => simp [ends_lift, kind]
  | gmres restart tol maxIters =>
    cases fresh : (Preconditioner.fresh w.options.preconditioner : Option (Preconditioner α)) <;>
      simp [ends_lift, kind, fresh]

/-- A solve that does not reuse anything gives the answer. -/
theorem ends_solve_answer (A : Mat α n n) (b : Vector α n) (w : Workspace α) :
    Ends (solve (Table.ofSquare A) b false) w (fun p _ ↦ answer w.options A b = .ok p)
      (fun _ _ ↦ True) := by
  have square : (Table.ofSquare A).rows = n := rfl
  simp only [answer, value_eq_ok_iff]
  unfold solve solveDirect solveIterative
  cases kind : w.options.kind with
  | directLu =>
    simp only [kind, square, ends_lift, ends_bind, ends_get, ends_ite, ends_modify, ends_pure]
    simp +contextual
  | gmres restart tol maxIters =>
    cases fresh : (Preconditioner.fresh w.options.preconditioner : Option (Preconditioner α)) with
    | none =>
      simp only [kind, fresh, square, ends_lift, ends_bind, ends_get, ends_ite, ends_modify,
        ends_pure]
      simp +contextual
    | some pc =>
      simp only [kind, fresh, square, ends_lift, ends_bind, ends_get, ends_ite, ends_modify,
        ends_pure]
      simp +contextual

/-- On a square matrix a solve stops with a fault, or because a cycle cannot be held. -/
theorem ends_solve_stop (A : Mat α n n) (b : Vector α n) (reuse : Bool) (w : Workspace α) :
    Ends (solve (Table.ofSquare A) b reuse) w (fun _ _ ↦ True)
      (fun e _ ↦ e.OfSolver w.options.kind.holdsCycle) := by
  have square : ¬ (Table.ofSquare A).rows ≠ n := fun h ↦ h rfl
  unfold solve solveDirect solveIterative
  cases kind : w.options.kind with
  | directLu =>
    simp only [kind, if_neg square, ends_lift, ends_bind, ends_get, ends_ite, ends_modify,
      ends_pure, implies_true, true_and]
    exact ⟨fun _ ↦ w.factors.solve_stops b,
      fun _ ↦ ⟨fun c _ ↦ c.solve_stops b, FactorCache.factor_stops _⟩⟩
  | gmres restart tol maxIters =>
    have solved (pc : Option (Preconditioner α)) :
        StopsOnly (Stop.OfSolver (LinearSolverKind.gmres restart tol maxIters).holdsCycle)
          ((Gmres.new restart tol maxIters).solveTable (Table.ofSquare A) pc b (zeros α n)) :=
      Gmres.solveTable_stops (fun p _ x ↦ p.apply_stops x) .breach A b _
    cases fresh : (Preconditioner.fresh w.options.preconditioner : Option (Preconditioner α)) with
    | none =>
      simp only [kind, fresh, if_neg square, ends_lift, ends_bind, ends_get, ends_ite, ends_modify,
        ends_pure, implies_true, true_and]
      exact ⟨fun _ ↦ solved _, fun _ ↦ solved _⟩
    | some pc =>
      simp only [kind, fresh, if_neg square, ends_lift, ends_bind, ends_get, ends_ite, ends_modify,
        ends_pure, implies_true, true_and]
      exact ⟨fun _ ↦ solved _, fun _ ↦ ⟨fun pc' _ ↦ solved _, pc.setup_stops (fun _ ↦ .fault _) A⟩⟩

end Workspace

end OperatingPoint
