import OperatingPoint.Proofs.LinearSolve

/-!
# Cycles of GMRES, one after the other

A cycle grows by one basis vector at a time, and the loop over cycles goes on until it settles.  The
loop is run on as much fuel as there are iterations to spend, which is never used up: every cycle
spends an iteration.  `Turns` is the loop without the fuel, with a record of the cycles that were
carried out, and `solves` says that a solve is such a loop.

`Cycle.Grows` records in the same way how a cycle came about, with the radius of every rotation.
-/

set_option autoImplicit false

namespace OperatingPoint

namespace Gmres

variable {α : Type} [Scalar α] {n : Nat}

/-- What is left of `b` at `x`. -/
def residual (A : Mat α n n) (b x : Vector α n) : Vector α n := difference b (A.mulVec x)

/-! ## One iteration -/

/-- A vector with the preconditioner applied to it, if there is one. -/
def precondition (pc : Option (Preconditioner α)) (v : Vector α n) : Except Stop (Vector α n) :=
  match pc with
  | some pc => pc.apply v
  | none => .ok v

namespace Cycle

/-- The last basis vector. -/
def newest (cycle : Cycle α n) : Vector α n := cycle.basis.getLast?.getD (zeros α n)

/-- What the direction `z` is turned into by the matrix, split into its coefficients over the basis
and what is left. -/
def split (cycle : Cycle α n) (A : Mat α n n) (z : Vector α n) : List α × Vector α n :=
  let (first, w) := orthogonalize cycle.basis (cycle.basis.map fun _ ↦ 0) (A.mulVec z)
  orthogonalize cycle.basis first w

/-- The coefficients with all rotations so far applied to them: those that are finished, and the
last one. -/
def rotated (cycle : Cycle α n) (A : Mat α n n) (z : Vector α n) : List α × α :=
  let column := (cycle.split A z).1
  rotateColumn cycle.rotations (column.headD 0) column.tail

/-- The length of what is left. -/
def height (cycle : Cycle α n) (A : Mat α n n) (z : Vector α n) : α := norm (cycle.split A z).2

/-- The rotation of an iteration with direction `z`. -/
def turn (cycle : Cycle α n) (A : Mat α n n) (z : Vector α n) : α × α :=
  rotation (cycle.rotated A z).2 (cycle.height A z)

/-- The radius of that rotation. -/
def radius (cycle : Cycle α n) (A : Mat α n n) (z : Vector α n) : α :=
  Scalar.hypotenuse (cycle.rotated A z).2 (cycle.height A z)

/-- Whether the direction `z` leads nowhere new. -/
def exhausts (cycle : Cycle α n) (A : Mat α n n) (z : Vector α n) : Bool :=
  decide (cycle.height A z < threshold α)

/-- The cycle after an iteration with direction `z`. -/
def along (cycle : Cycle α n) (A : Mat α n n) (z : Vector α n) : Cycle α n where
  basis :=
    if cycle.exhausts A z then cycle.basis
    else cycle.basis ++ [Vector.ofFn fun i ↦ (cycle.split A z).2.get i * (1 / cycle.height A z)]
  directions := cycle.directions ++ [z]
  columns := cycle.columns ++ [(cycle.rotated A z).1 ++
    [(cycle.turn A z).1 * (cycle.rotated A z).2 + (cycle.turn A z).2 * cycle.height A z]]
  rotations := cycle.rotations ++ [cycle.turn A z]
  rhs := cycle.rhs ++ [(cycle.turn A z).1 * cycle.estimate + (cycle.turn A z).2 * 0]
  estimate := -(cycle.turn A z).2 * cycle.estimate + (cycle.turn A z).1 * 0

theorem extend_eq (cycle : Cycle α n) (A : Mat α n n) (pc : Option (Preconditioner α)) :
    cycle.extend A pc =
      (precondition pc cycle.newest).map fun z ↦ (cycle.along A z, cycle.exhausts A z) := by
  unfold extend precondition
  cases pc with
  | none => rfl
  | some p =>
    change (p.apply cycle.newest >>= fun z ↦ Except.ok _) = (p.apply cycle.newest).map _
    cases p.apply cycle.newest with
    | ok z => rfl
    | error e => rfl

/-- The cycles that arise from the residual `r`, with the radii of the rotations on the way.  The
flag says whether the space is exhausted, which ends the cycle. -/
inductive Grows (A : Mat α n n) (pc : Option (Preconditioner α)) (r : Vector α n) :
    List α → Cycle α n → Bool → Prop
  | start : Grows A pc r [] (Cycle.start r) false
  | extend {radii : List α} {cycle : Cycle α n} {z : Vector α n}
      (grown : Grows A pc r radii cycle false)
      (preconditioned : precondition pc cycle.newest = .ok z) :
      Grows A pc r (radii ++ [cycle.radius A z]) (cycle.along A z) (cycle.exhausts A z)

theorem Grows.of_nil {A : Mat α n n} {pc : Option (Preconditioner α)} {r : Vector α n}
    {cycle : Cycle α n} {exhausted : Bool} (grown : Grows A pc r [] cycle exhausted) :
    cycle = Cycle.start r := by
  generalize none : ([] : List α) = radii at grown
  cases grown with
  | start => rfl
  | extend => exact absurd none.symm (List.append_ne_nil_of_right_ne_nil _ (List.cons_ne_nil _ _))

end Cycle

/-! ## One cycle -/

section

variable {g : Gmres α} {A : Mat α n n} {pc : Option (Preconditioner α)} {first : α}

theorem iterate_succ (budget iteration : Nat) (cycle : Cycle α n) :
    g.iterate A pc first (budget + 1) iteration cycle =
      (precondition pc cycle.newest).bind fun z ↦
        if (g.stopping.check (Scalar.abs (cycle.along A z).estimate) first (iteration + 1)).1 ||
            cycle.exhausts A z then
          .ok (cycle.along A z, iteration + 1, true)
        else g.iterate A pc first budget (iteration + 1) (cycle.along A z) := by
  rw [iterate, Cycle.extend_eq]
  cases precondition pc cycle.newest with
  | ok z => rfl
  | error e => rfl

/-- A cycle grows, spends an iteration if it may, and stays within the budget of the solve. -/
theorem iterate_grows {r : Vector α n} {budget iteration iteration' : Nat} {radii : List α}
    {cycle cycle' : Cycle α n} {ended : Bool}
    (run : g.iterate A pc first budget iteration cycle = .ok (cycle', iteration', ended))
    (room : iteration < g.stopping.maxIters) (grown : Cycle.Grows A pc r radii cycle false) :
    iteration ≤ iteration' ∧ iteration' ≤ g.stopping.maxIters ∧
      (0 < budget → iteration < iteration') ∧
      ∃ radii' exhausted, Cycle.Grows A pc r radii' cycle' exhausted := by
  induction budget generalizing iteration radii cycle with
  | zero =>
    cases run
    exact ⟨Nat.le_refl _, Nat.le_of_lt room, fun spend ↦ absurd spend (Nat.lt_irrefl 0), radii, false,
      grown⟩
  | succ budget ih =>
    rw [iterate_succ] at run
    obtain ⟨z, preconditioned, run⟩ := bind_eq_ok.1 run
    have longer := grown.extend preconditioned
    split at run
    · cases run
      exact ⟨Nat.le_succ _, room, fun _ ↦ Nat.lt_succ_self _, _, _, longer⟩
    · rename_i on
      simp only [Stopping.check, Bool.or_eq_true, decide_eq_true_eq, not_or] at on
      rw [Bool.eq_false_iff.2 on.2] at longer
      obtain ⟨later, within, -, grew⟩ := ih run (by omega) longer
      exact ⟨by omega, within, fun _ ↦ by omega, grew⟩

/-- A cycle comes to its end if its preconditioner can be applied. -/
theorem iterate_yields (applies : ∀ v : Vector α n, ∃ z, precondition pc v = .ok z)
    (budget iteration : Nat) (cycle : Cycle α n) :
    ∃ carried, g.iterate A pc first budget iteration cycle = .ok carried := by
  induction budget generalizing iteration cycle with
  | zero => exact ⟨_, rfl⟩
  | succ budget ih =>
    obtain ⟨z, preconditioned⟩ := applies cycle.newest
    rw [iterate_succ, preconditioned, Except.bind]
    split
    · exact ⟨_, rfl⟩
    · exact ih _ _

end

/-! ## Cycle after cycle -/

/-- A cycle that was carried out: the solution it set out from, how it went and what it became. -/
structure Turn (α : Type) (n : Nat) where
  start : Vector α n
  radii : List α
  cycle : Cycle α n

/-- The solution after the cycle. -/
def Turn.finish (turn : Turn α n) : Vector α n := turn.cycle.update turn.start

section

variable (g : Gmres α) (A : Mat α n n) (pc : Option (Preconditioner α)) (b : Vector α n) (first : α)

/-- The cycle is carried out from `iteration` on, which makes it `iteration'`. -/
structure Carries (iteration : Nat) (turn : Turn α n) (iteration' : Nat) (ended : Bool) : Prop where
  run : g.iterate A pc first g.restart iteration (Cycle.start (residual A b turn.start)) =
    .ok (turn.cycle, iteration', ended)
  grown : ∃ exhausted, Cycle.Grows A pc (residual A b turn.start) turn.radii turn.cycle exhausted

/-- The statistics after a cycle that made it `iteration` and has led to `x`. -/
def statistics (iteration : Nat) (x : Vector α n) : SolveStats α :=
  ⟨iteration, norm (residual A b x), decide (norm (residual A b x) ≤ g.stopping.tol * first)⟩

/-- Whether the loop stops after a cycle. -/
def settles (stats : SolveStats α) (ended : Bool) : Bool :=
  stats.converged || (ended && decide (g.stopping.maxIters ≤ stats.iterations))

/-- The loop over cycles, with the cycles that were carried out and how it ends. -/
inductive Turns : Nat → Vector α n → SolveStats α → List (Turn α n) →
    Except Stop (Vector α n × SolveStats α) → Prop
  | spent {iteration x stats} (budget : g.stopping.maxIters ≤ iteration) :
      Turns iteration x stats [] (.ok (x, stats))
  | unheld {iteration x stats} (room : iteration < g.stopping.maxIters)
      (holds : fitsBlock (3 * (g.restart + 1)) = false) :
      Turns iteration x stats [] (.error .breach)
  | broken {iteration x stats e} (room : iteration < g.stopping.maxIters)
      (holds : fitsBlock (3 * (g.restart + 1)) = true)
      (run : g.iterate A pc first g.restart iteration (Cycle.start (residual A b x)) = .error e) :
      Turns iteration x stats [] (.error e)
  | settled {iteration turn stats iteration' ended} (room : iteration < g.stopping.maxIters)
      (holds : fitsBlock (3 * (g.restart + 1)) = true)
      (carries : g.Carries A pc b first iteration turn iteration' ended)
      (settles : g.settles (g.statistics A b first iteration' turn.finish) ended = true) :
      Turns iteration turn.start stats [turn]
        (.ok (turn.finish, g.statistics A b first iteration' turn.finish))
  | again {iteration turn stats iteration' ended turns result}
      (room : iteration < g.stopping.maxIters)
      (holds : fitsBlock (3 * (g.restart + 1)) = true)
      (carries : g.Carries A pc b first iteration turn iteration' ended)
      (settles : g.settles (g.statistics A b first iteration' turn.finish) ended = false)
      (rest : Turns iteration' turn.finish (g.statistics A b first iteration' turn.finish) turns
        result) :
      Turns iteration turn.start stats (turn :: turns) result

theorem cycles_succ (fuel iteration : Nat) (x : Vector α n) (stats : SolveStats α) :
    g.cycles A pc b first (fuel + 1) iteration x stats =
      if iteration < g.stopping.maxIters then
        if fitsBlock (3 * (g.restart + 1)) then
          (g.iterate A pc first g.restart iteration (Cycle.start (residual A b x))).bind
            fun (cycle, iteration', ended) ↦
              if g.settles (g.statistics A b first iteration' (cycle.update x)) ended then
                .ok (cycle.update x, g.statistics A b first iteration' (cycle.update x))
              else g.cycles A pc b first fuel iteration' (cycle.update x)
                (g.statistics A b first iteration' (cycle.update x))
        else .error .breach
      else .ok (x, stats) := by
  rw [cycles, reserveCycle, reserve]
  by_cases holds : fitsBlock (3 * (g.restart + 1)) = true
  · rw [if_pos holds, if_pos holds]
    rfl
  · rw [if_neg holds, if_neg holds]
    rfl

variable {g}

/-- The loop over cycles ends by itself before the fuel does. -/
theorem cycles_turns (advances : 0 < g.restart) {fuel iteration : Nat}
    (covers : g.stopping.maxIters ≤ fuel + iteration) (x : Vector α n) (stats : SolveStats α) :
    ∃ turns, g.Turns A pc b first iteration x stats turns
      (g.cycles A pc b first fuel iteration x stats) := by
  induction fuel generalizing iteration x stats with
  | zero => exact ⟨[], .spent (by omega)⟩
  | succ fuel ih =>
    rw [cycles_succ]
    by_cases room : iteration < g.stopping.maxIters
    case neg =>
      rw [if_neg room]
      exact ⟨[], .spent (Nat.le_of_not_lt room)⟩
    rw [if_pos room]
    cases holds : fitsBlock (3 * (g.restart + 1)) with
    | false => exact ⟨[], .unheld room holds⟩
    | true =>
      rw [if_pos rfl]
      cases run : g.iterate A pc first g.restart iteration (Cycle.start (residual A b x)) with
      | error e => exact ⟨[], .broken room holds run⟩
      | ok carried =>
        obtain ⟨cycle, iteration', ended⟩ := carried
        obtain ⟨-, -, spends, radii, exhausted, grown⟩ := iterate_grows run room .start
        have carries : g.Carries A pc b first iteration ⟨x, radii, cycle⟩ iteration' ended :=
          ⟨run, exhausted, grown⟩
        dsimp only [Except.bind]
        cases settles : g.settles (g.statistics A b first iteration' (cycle.update x)) ended with
        | true =>
          rw [if_pos rfl]
          exact ⟨[_], .settled room holds carries settles⟩
        | false =>
          have spent := spends advances
          have covers' : g.stopping.maxIters ≤ fuel + iteration' := by omega
          obtain ⟨turns, rest⟩ := ih covers' (cycle.update x)
            (g.statistics A b first iteration' (cycle.update x))
          rw [if_neg Bool.false_ne_true]
          exact ⟨_ :: turns, .again room holds carries settles rest⟩

/-- A solve from the guess `x`.  A guess without residual is the solution; otherwise cycles are
carried out. -/
inductive Solves (g : Gmres α) (A : Mat α n n) (pc : Option (Preconditioner α)) (b x : Vector α n) :
    List (Turn α n) → Except Stop (Vector α n × SolveStats α) → Prop
  | solved (zero : (norm (residual A b x) == 0) = true) :
      Solves g A pc b x [] (.ok (x, ⟨0, norm (residual A b x), true⟩))
  | loop {turns result} (nonzero : (norm (residual A b x) == 0) = false)
      (cycles : g.Turns A pc b (norm (residual A b x)) 0 x ⟨0, norm (residual A b x), false⟩ turns
        result) :
      Solves g A pc b x turns result

theorem solve_eq (g : Gmres α) (A : Mat α n n) (pc : Option (Preconditioner α)) (b x : Vector α n) :
    g.solve A pc b x =
      if norm (residual A b x) == 0 then .ok (x, ⟨0, norm (residual A b x), true⟩)
      else g.cycles A pc b (norm (residual A b x)) g.stopping.maxIters 0 x
        ⟨0, norm (residual A b x), false⟩ := rfl

/-- **A solve ends by itself.**  There are as many cycles as it takes, and no bound on their number is
ever hit. -/
theorem solves (advances : 0 < g.restart) (x : Vector α n) :
    ∃ turns, g.Solves A pc b x turns (g.solve A pc b x) := by
  rw [solve_eq]
  cases nonzero : norm (residual A b x) == 0 with
  | true => exact ⟨[], .solved nonzero⟩
  | false =>
    obtain ⟨turns, run⟩ := cycles_turns A pc b (norm (residual A b x)) advances
      (Nat.le_add_right g.stopping.maxIters 0) x ⟨0, norm (residual A b x), false⟩
    exact ⟨turns, .loop nonzero run⟩

end

omit [Scalar α] in
theorem restart_pos (restart maxIters : Nat) (tol : α) : 0 < (new restart tol maxIters).restart :=
  Nat.lt_of_lt_of_le Nat.zero_lt_one (Nat.le_max_right restart 1)

theorem solveTable_ofSquare (g : Gmres α) (A : Mat α n n) (pc : Option (Preconditioner α))
    (b x : Vector α n) : g.solveTable (Table.ofSquare A) pc b x = g.solve A pc b x := by
  rw [solveTable, dif_pos rfl, Table.square?_ofSquare]

end Gmres

end OperatingPoint
