import OperatingPoint.Proofs.GmresRun
import OperatingPoint.Proofs.SetupHistories

/-!
# What the statistics of GMRES say

Whatever the scalars are and however a solve goes, its statistics can be relied on: the iterations
were paid for, the residual is that of the solution it hands back, and convergence is claimed only
where that residual passes the test, or for a guess that had no residual.  The estimates that steer
a cycle do not come into it.

A solve with a preconditioner that is set up on its matrix gives an answer, with one exception: a
first cycle that is too long to be held.
-/

set_option autoImplicit false

namespace OperatingPoint

namespace Gmres

variable {α : Type} [Scalar α] {n : Nat} {g : Gmres α} {A : Mat α n n}
  {pc : Option (Preconditioner α)} {b x x' : Vector α n} {first : α} {iteration : Nat}
  {stats stats' : SolveStats α} {turns : List (Turn α n)}
  {result : Except Stop (Vector α n × SolveStats α)}

/-- Statistics that can be relied on, of a solve from `x` that has led to `x'`. -/
structure Honest (g : Gmres α) (A : Mat α n n) (b x x' : Vector α n) (stats : SolveStats α) :
    Prop where
  paid : stats.iterations ≤ g.stopping.maxIters
  measured : stats.finalResidual = norm (residual A b x')
  passed : stats.converged = true →
    stats.finalResidual ≤ g.stopping.tol * norm (residual A b x) ∨
      (norm (residual A b x) == 0) = true ∧ x' = x

/-- The statistics after a cycle can be relied on if the cycle was paid for. -/
theorem honest_statistics (paid : iteration ≤ g.stopping.maxIters) (x' : Vector α n) :
    g.Honest A b x x' (g.statistics A b (norm (residual A b x)) iteration x') where
  paid := paid
  measured := rfl
  passed converged := .inl (of_decide_eq_true converged)

theorem Carries.paid {turn : Turn α n} {iteration' : Nat} {ended : Bool}
    (carries : g.Carries A pc b first iteration turn iteration' ended)
    (room : iteration < g.stopping.maxIters) : iteration' ≤ g.stopping.maxIters :=
  (iterate_grows carries.run room .start).2.1

/-- A loop over cycles hands back statistics that can be relied on, if it is given such. -/
theorem Turns.honest {y : Vector α n}
    (turned : g.Turns A pc b (norm (residual A b x)) iteration y stats turns result)
    (given : g.Honest A b x y stats) (ok : result = .ok (x', stats')) :
    g.Honest A b x x' stats' := by
  induction turned with
  | spent => cases ok; exact given
  | unheld => cases ok
  | broken => cases ok
  | settled room _ carries =>
    cases ok
    exact honest_statistics (carries.paid room) _
  | again room _ carries _ _ ih => exact ih (honest_statistics (carries.paid room) _) ok

/-- A loop over cycles that can be held gives an answer, if the preconditioner always does. -/
theorem Turns.yields (turned : g.Turns A pc b first iteration x stats turns result)
    (applies : ∀ v : Vector α n, ∃ z, precondition pc v = .ok z)
    (holds : fitsBlock (3 * (g.restart + 1)) = true) : ∃ answer, result = .ok answer := by
  induction turned with
  | spent => exact ⟨_, rfl⟩
  | unheld _ unheld => rw [holds] at unheld; cases unheld
  | broken _ _ run =>
    obtain ⟨carried, ran⟩ := iterate_yields applies _ _ _
    rw [run] at ran
    cases ran
  | settled => exact ⟨_, rfl⟩
  | again _ _ _ _ _ ih => exact ih

/-- Where a cycle cannot be held, the loop ends before its first one. -/
theorem Turns.of_unheld (turned : g.Turns A pc b first iteration x stats turns result)
    (unheld : fitsBlock (3 * (g.restart + 1)) = false) :
    result = if g.stopping.maxIters ≤ iteration then .ok (x, stats) else .error .breach := by
  cases turned with
  | spent budget => rw [if_pos budget]
  | unheld room => rw [if_neg (Nat.not_le_of_lt room)]
  | broken _ holds | settled _ holds | again _ holds => rw [unheld] at holds; cases holds

theorem precondition_of_build {kind : PreconditionerKind}
    (built : Preconditioner.build kind (Table.ofSquare A) = .ok pc) (v : Vector α n) :
    ∃ z, precondition pc v = .ok z := by
  cases pc with
  | none => exact ⟨v, rfl⟩
  | some p => exact Preconditioner.apply_of_build built v

/-- **The statistics of a solve are honest.**  A solve with a preconditioner that is set up on its
matrix ends, and hands back a solution with statistics that can be relied on.  Only if a cycle of
full length cannot be held does it stop, when the first cycle is due. -/
theorem solveTable_honest {kind : PreconditionerKind}
    (built : Preconditioner.build kind (Table.ofSquare A) = .ok pc) (restart maxIters : Nat) (tol : α)
    (b x : Vector α n) :
    (∃ turns, (new restart tol maxIters).Solves A pc b x turns
      ((new restart tol maxIters).solveTable (Table.ofSquare A) pc b x)) ∧
    if (LinearSolverKind.gmres restart tol maxIters).holdsCycle = true ∨ maxIters = 0 ∨
        (norm (residual A b x) == 0) = true then
      ∃ x' stats, (new restart tol maxIters).solveTable (Table.ofSquare A) pc b x = .ok (x', stats) ∧
        (new restart tol maxIters).Honest A b x x' stats
    else (new restart tol maxIters).solveTable (Table.ofSquare A) pc b x = .error .breach := by
  rw [solveTable_ofSquare]
  obtain ⟨turns, solves⟩ := Gmres.solves A pc b (restart_pos restart maxIters tol) x
  refine ⟨⟨turns, solves⟩, ?_⟩
  generalize (new restart tol maxIters).solve A pc b x = result at solves
  cases solves with
  | solved zero =>
    rw [if_pos (.inr (.inr zero))]
    exact ⟨x, _, rfl, Nat.zero_le _, rfl, fun _ ↦ .inr ⟨zero, rfl⟩⟩
  | loop nonzero cycles =>
    have given : (new restart tol maxIters).Honest A b x x ⟨0, norm (residual A b x), false⟩ :=
      ⟨Nat.zero_le _, rfl, fun h ↦ absurd h Bool.false_ne_true⟩
    cases holds : (LinearSolverKind.gmres restart tol maxIters).holdsCycle with
    | true =>
      rw [if_pos (.inl rfl)]
      obtain ⟨⟨x', stats⟩, rfl⟩ := cycles.yields (precondition_of_build built) holds
      exact ⟨x', stats, rfl, cycles.honest given rfl⟩
    | false =>
      have ends := cycles.of_unheld holds
      by_cases spent : maxIters = 0
      · rw [if_pos (.inr (.inl spent))]
        exact ⟨x, _, ends.trans (if_pos (Nat.le_zero.2 spent)), given⟩
      · rw [if_neg (by simp [spent, nonzero])]
        exact ends.trans (if_neg (Nat.not_le_of_lt (Nat.pos_of_ne_zero spent)))

/-- A solve with incomplete factors, with cycles of the least length. -/
theorem solveTable_honest_incomplete :
    let A : Mat Float 2 2 := ⟨#v[#v[4.0, 1.0], #v[1.0, 3.0]]⟩
    let b : Vector Float 2 := #v[1.0, 2.0]
    ∃ pc, Preconditioner.build .ilu0 (Table.ofSquare A) = .ok pc ∧
      ∃ x' stats, (new 0 1e-9 20).solveTable (Table.ofSquare A) pc b (zeros Float 2) =
          .ok (x', stats) ∧
        (new 0 1e-9 20).Honest A b (zeros Float 2) x' stats := by
  intro A b
  have sets : (Preconditioner.build .ilu0 (Table.ofSquare A)).isOk = true := by decide +kernel
  cases built : Preconditioner.build .ilu0 (Table.ofSquare A) with
  | error e =>
    rw [built] at sets
    cases sets
  | ok pc =>
    have honest := (solveTable_honest built 0 20 1e-9 b (zeros Float 2)).2
    rw [if_pos (.inl (by decide))] at honest
    exact ⟨pc, rfl, honest⟩

/-- With the largest restart length that a machine word holds, a small system is not solved: its
first cycle is due, and is too long. -/
theorem solveTable_unheld :
    ¬ ∃ x' stats, (new 18446744073709551615 1e-9 20).solveTable
      (Table.ofSquare (⟨#v[#v[4.0, 1.0], #v[1.0, 3.0]]⟩ : Mat Float 2 2)) none #v[1.0, 2.0]
      #v[0.0, 0.0] = .ok (x', stats) := by
  rintro ⟨x', stats, ok⟩
  have stops : ((new 18446744073709551615 1e-9 20).solveTable
      (Table.ofSquare (⟨#v[#v[4.0, 1.0], #v[1.0, 3.0]]⟩ : Mat Float 2 2)) none #v[1.0, 2.0]
      #v[0.0, 0.0]).isOk = false := by decide +kernel
  rw [ok] at stops
  cases stops

end Gmres

end OperatingPoint
