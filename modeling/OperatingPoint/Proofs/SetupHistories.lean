import OperatingPoint.Linear.FullPivot
import OperatingPoint.Proofs.FactorReuse

/-!
# What any calls leave in a workspace

A workspace is called with square matrices of any sizes, with or without reuse, and told now and
then that the matrix has changed.  Some calls fail, and the next one goes on with what they left.

When a setup is called current it is what the last call to set the solver up made of its matrix.
For direct solvers, for diagonal preconditioners and without a preconditioner that is a finished
setup.  Incomplete factors are another matter: the old ones are dropped before the new ones are
known to exist, and a pivot that vanishes leaves none, while what was current stays current.

`SetUpBy` is the last call to set a solver up, and `Leaves` what it left.
-/

set_option autoImplicit false

namespace OperatingPoint

open Step

variable {α : Type} [Scalar α] {m n : Nat}

/-! ## Finished setups -/

section

variable [DirectSolver α]

/-- The factors of a square matrix. -/
def FactorCache.ofSquare (A : Mat α n n) : FactorCache α := ⟨some ⟨n, DirectSolver.factor A⟩⟩

theorem FactorCache.factor_ofSquare (A : Mat α n n) :
    factor (Table.ofSquare A) = .ok (ofSquare A) := by
  have square : (Table.ofSquare A).square? (Table.ofSquare A).rows = some A :=
    Table.square?_ofSquare A
  rw [factor, square]
  rfl

omit [Scalar α] in
theorem FactorCache.solve_ofSquare (A : Mat α n n) (b : Vector α n) :
    (ofSquare A).solve b = .ok (DirectSolver.solve (DirectSolver.factor A) b) := by
  rw [solve, ofSquare]
  exact dif_pos rfl

end

namespace Mat

omit [Scalar α] in
theorem length_diagonal (A : Mat α n n) : A.diagonal.length = n := by
  have present : ∀ i ∈ List.range (min n n),
      (if h : i < n ∧ i < n then some (A ⟨i, h.1⟩ ⟨i, h.2⟩) else none).isSome = true := by
    intro i here
    rw [Nat.min_self, List.mem_range] at here
    rw [dif_pos ⟨here, here⟩]
    rfl
  rw [diagonal, List.filterMap_length_eq_length.2 present, Nat.min_self, List.length_range]

end Mat

namespace Preconditioner

variable {kind : PreconditionerKind} {p : Preconditioner α} {A : Mat α n n}

/-- A preconditioner that is set up on a matrix takes the vectors that the matrix takes. -/
theorem apply_of_build (built : build kind (Table.ofSquare A) = .ok (some p)) (x : Vector α n) :
    ∃ y, p.apply x = .ok y := by
  cases kind with
  | none => cases built
  | jacobi =>
    cases built
    have size : ((A.diagonal.map fun d ↦ if d == 0 then 1 else 1 / d).toArray).size = n := by
      simp [Mat.length_diagonal]
    exact ⟨_, dif_pos size⟩
  | ilu0 =>
    obtain ⟨p', setup, same⟩ := map_eq_ok.1 built
    cases same
    have square : (Table.ofSquare A).rows ≤ (Table.ofSquare A).columns := Nat.le_refl n
    rw [Preconditioner.setup, dif_pos square] at setup
    obtain ⟨F, -, same⟩ := bind_eq_ok.1 setup
    cases same
    exact ⟨_, dif_pos rfl⟩

/-- Only incomplete factors may fail to exist. -/
theorem build_stops :
    StopsOnly (fun e ↦ kind = .ilu0 ∧ ∃ k : Fin n, e = .fault (.zeroPivot k))
    (build kind (Table.ofSquare A)) := by
  cases kind with
  | none => exact .ok _
  | jacobi => exact .ok _
  | ilu0 => exact .map (setup_stops (fun k ↦ ⟨rfl, k, rfl⟩) A _) some

end Preconditioner

/-- Behind a preconditioner that takes no vector an iterative solve has an answer only where it
does not iterate. -/
theorem Gmres.solveTable_refused {restart maxIters : Nat} {tol : α} {p : Preconditioner α}
    {e : Stop} {A : Mat α n n} {b x : Vector α n} {q : Vector α n × SolveStats α}
    (refuses : ∀ x : Vector α n, p.apply x = .error e)
    (solved : (new restart tol maxIters).solveTable (Table.ofSquare A) (some p) b x = .ok q) :
    q.1 = x ∧ q.2.iterations = 0 := by
  generalize new : new restart tol maxIters = g at solved
  have budget : 0 < g.restart := by
    rw [← new]
    exact Nat.le_max_right restart 1
  rw [solveTable, dif_pos rfl, Table.square?_ofSquare] at solved
  unfold solve at solved
  dsimp only at solved
  split at solved
  · cases solved
    exact ⟨rfl, rfl⟩
  · cases fuel : g.stopping.maxIters with
    | zero =>
      rw [fuel] at solved
      cases solved
      exact ⟨rfl, rfl⟩
    | succ fuel' =>
      -- The first iteration of the first cycle does not come to its end.
      have extend : ∀ cycle : Cycle α n, cycle.extend A (some p) = .error e := by
        intro cycle
        rw [Cycle.extend]
        simp only [refuses]
        rfl
      have iterate : ∀ first iteration cycle,
          g.iterate A (some p) first g.restart iteration cycle = .error e := by
        intro first iteration cycle
        obtain ⟨budget', same⟩ := Nat.exists_eq_add_of_lt budget
        rw [same, Nat.zero_add, Gmres.iterate, extend]
        rfl
      rw [fuel, cycles, if_pos (by omega)] at solved
      obtain ⟨_, -, solved⟩ := bind_eq_ok.1 solved
      dsimp only at solved
      rw [iterate] at solved
      cases solved

/-! ## One solve -/

variable [DirectSolver α]

namespace Workspace

variable {w w' : Workspace α} {reuse : Bool}

/-- Whether a solve sets the solver up anew. -/
def setsUp (w : Workspace α) (reuse : Bool) : Bool :=
  match w.options.kind with
  | .directLu => !(reuse && w.current && w.factors.hasFactors)
  | .gmres .. => !(reuse && w.preconditionerCurrent)

/-- A right-hand side that does not fit the matrix is refused before anything else. -/
theorem ends_solve_unfit {A : Mat α m m} {b : Vector α n} (h : m ≠ n) :
    Ends (solve (Table.ofSquare A) b reuse) w (fun _ _ ↦ False) (fun _ t ↦ t = w) := by
  unfold solve
  rw [if_pos (show (Table.ofSquare A).rows ≠ n from h)]
  rfl

/-- A solve that takes the setup at hand leaves it alone. -/
theorem ends_solve_reusing {A : Mat α n n} {b : Vector α n} (h : w.setsUp reuse = false) :
    Ends (solve (Table.ofSquare A) b reuse) w
      (fun p t ↦ w.reuses = true ∧ t = { w with current := true, last := some p.2 })
      (fun _ t ↦ t = w) := by
  have square : ¬ (Table.ofSquare A).rows ≠ n := fun h ↦ h rfl
  unfold solve solveDirect solveIterative
  cases kind : w.options.kind with
  | directLu =>
    simp only [setsUp, kind, Bool.not_eq_false'] at h
    rw [Bool.and_eq_true, Bool.and_eq_true] at h
    simp [ends_lift, reuses, kind, square, h]
  | gmres restart tol maxIters =>
    simp only [setsUp, kind, Bool.not_eq_false', Bool.and_eq_true] at h
    simp [ends_lift, reuses, kind, square, h]

/-- A solve that sets the solver up leaves the setup for its matrix, and has an answer unless a
cycle cannot be held.  If the setup does not exist nothing is left, but what was current still
is. -/
theorem ends_solve_anew {A : Mat α n n} {b : Vector α n} (h : w.setsUp reuse = true) :
    Ends (solve (Table.ofSquare A) b reuse) w
      (fun _ t ↦ w.options.build (Table.ofSquare A) = .ok t.kept ∧ t.options = w.options ∧
        t.current = true ∧ t.reuses = true)
      (fun e t ↦ e = .breach ∨
        w.options.build (Table.ofSquare A) = .error e ∧ ∃ k : Fin n, e = .fault (.zeroPivot k) ∧
          t = { w with preconditioner := Preconditioner.fresh w.options.preconditioner }) := by
  have square : ¬ (Table.ofSquare A).rows ≠ n := fun h ↦ h rfl
  unfold solve solveDirect solveIterative
  cases kind : w.options.kind with
  | directLu =>
    simp only [setsUp, kind, Bool.not_eq_true'] at h
    simp only [kind, if_neg square, h, Bool.false_eq_true, if_false, reuses, kept,
      LinearOptions.build, FactorCache.factor_ofSquare, FactorCache.solve_ofSquare, ends_bind,
      ends_get, ends_modify, ends_pure, ends_lift_ok]
    exact ⟨rfl, trivial, trivial, trivial⟩
  | gmres restart tol maxIters =>
    simp only [setsUp, kind, Bool.not_eq_true'] at h
    have solved : ∀ pc, Preconditioner.build w.options.preconditioner (Table.ofSquare A) = .ok pc →
        StopsOnly (· = .breach)
          ((Gmres.new restart tol maxIters).solveTable (Table.ofSquare A) pc b (zeros α n)) := by
      intro pc built
      refine Gmres.solveTable_stops (Q := (· = .breach)) (fun p same x ↦ ?_) (fun _ ↦ rfl) A b _
      obtain ⟨y, applied⟩ := Preconditioner.apply_of_build (same ▸ built) x
      rw [applied]
      exact .ok y
    have built : ∀ pc, w.options.build (Table.ofSquare A) = .ok (.preconditioned pc) ↔
        Preconditioner.build w.options.preconditioner (Table.ofSquare A) = .ok pc := by
      intro pc
      rw [LinearOptions.build, kind, map_eq_ok]
      simp
    cases fresh : (Preconditioner.fresh w.options.preconditioner : Option (Preconditioner α)) with
    | none =>
      have none := Preconditioner.build_none (A := Table.ofSquare A) fresh
      simp only [kind, if_neg square, h, Bool.false_eq_true, if_false, fresh, reuses, kept,
        ends_bind, ends_get, ends_modify, ends_pure, ends_lift]
      exact ⟨fun _ _ ↦ ⟨(built _).2 none, trivial, trivial, trivial⟩,
        fun e stop ↦ .inl (solved _ none e stop)⟩
    | some pc =>
      have same := Preconditioner.build_some (A := Table.ofSquare A) fresh
      simp only [kind, if_neg square, h, Bool.false_eq_true, if_false, fresh, reuses, kept,
        ends_bind, ends_get, ends_modify, ends_pure, ends_lift]
      refine ⟨fun pc' setup ↦ ?_, fun e setup ↦ .inr ?_⟩
      · have some : Preconditioner.build w.options.preconditioner (Table.ofSquare A) =
            .ok (some pc') := by rw [same, setup]; rfl
        exact ⟨fun _ _ ↦ ⟨(built _).2 some, trivial, trivial, trivial⟩,
          fun e stop ↦ .inl (solved _ some e stop)⟩
      · have refused : Preconditioner.build w.options.preconditioner (Table.ofSquare A) =
            .error e := by rw [same, setup]; rfl
        obtain ⟨-, k, pivot⟩ := Preconditioner.build_stops e refused
        refine ⟨?_, k, pivot, trivial⟩
        rw [LinearOptions.build, kind, refused]
        rfl

/-- With the setup for a matrix at hand a solve with reuse has an answer unless a cycle cannot be
held.  A direct solver solves with the factors at hand, whatever matrix it is given. -/
theorem ends_solve_built {A : Mat α n n} (reuses : w.reuses = true)
    (built : w.options.build (Table.ofSquare A) = .ok w.kept) (A' : Mat α n n) (b : Vector α n) :
    Ends (solve (Table.ofSquare A') b true) w
      (fun p _ ↦ w.options.kind = .directLu →
        p = (DirectSolver.solve (DirectSolver.factor A) b, SolveStats.direct))
      (fun e _ ↦ e = .breach ∧ w.options.kind.holdsCycle = false) := by
  have square : ¬ (Table.ofSquare A').rows ≠ n := fun h ↦ h rfl
  unfold solve solveDirect solveIterative
  cases kind : w.options.kind with
  | directLu =>
    have current : w.current = true := by simpa [Workspace.reuses, kind] using reuses
    have factors : w.factors = FactorCache.ofSquare A := by
      simpa [LinearOptions.build, kept, kind, FactorCache.factor_ofSquare, Except.map] using
        built.symm
    have has : (FactorCache.ofSquare A).hasFactors = true := rfl
    simp only [kind, if_neg square, current, factors, has, Bool.and_self, if_true,
      FactorCache.solve_ofSquare, ends_bind, ends_get, ends_modify, ends_pure, ends_lift_ok]
    exact fun _ ↦ trivial
  | gmres restart tol maxIters =>
    have current : w.preconditionerCurrent = true := by simpa [Workspace.reuses, kind] using reuses
    rw [LinearOptions.build, kept, kind, map_eq_ok] at built
    obtain ⟨pc, built, same⟩ := built
    cases same
    simp only [kind, if_neg square, current, Bool.and_self, if_true, ends_bind, ends_get,
      ends_modify, ends_pure, ends_lift]
    refine ⟨fun _ _ direct ↦ ?_, ?_⟩
    · cases direct
    · refine Gmres.solveTable_stops
        (Q := fun e ↦ e = .breach ∧ (LinearSolverKind.gmres restart tol maxIters).holdsCycle = false)
        (fun p same x ↦ ?_) (fun unheld ↦ ⟨rfl, unheld⟩) A' b _
      obtain ⟨y, applied⟩ := Preconditioner.apply_of_build (same ▸ built) x
      rw [applied]
      exact .ok y

/-- With incomplete factors that were never finished a solve with reuse has an answer only where it
does not iterate, and it fails otherwise. -/
theorem ends_solve_unfinished {restart maxIters : Nat} {tol : α}
    (kind : w.options.kind = .gmres restart tol maxIters) (current : w.preconditionerCurrent = true)
    (unfinished : w.preconditioner = Preconditioner.fresh .ilu0) (some : 0 < n) (A : Mat α n n)
    (b : Vector α n) :
    Ends (solve (Table.ofSquare A) b true) w (fun p _ ↦ p.1 = zeros α n ∧ p.2.iterations = 0)
      (fun e _ ↦ e = .fault (.dimension 0 n) ∨
        e = .breach ∧ w.options.kind.holdsCycle = false) := by
  have square : ¬ (Table.ofSquare A).rows ≠ n := fun h ↦ h rfl
  have refuses : ∀ x : Vector α n, (Preconditioner.incomplete (Mat.zero α 0 0)).apply x =
      .error (.fault (.dimension 0 n)) := fun x ↦ dif_neg (Nat.ne_of_gt some)
  unfold solve solveIterative
  simp only [kind, if_neg square, current, unfinished, Bool.and_self, if_true, ends_bind, ends_get,
    ends_modify, ends_pure, ends_lift]
  refine ⟨fun q solved ↦ Gmres.solveTable_refused refuses solved, ?_⟩
  refine Gmres.solveTable_stops (Q := fun e ↦ e = .fault (.dimension 0 n) ∨
    e = .breach ∧ (LinearSolverKind.gmres restart tol maxIters).holdsCycle = false)
    (fun p same x ↦ ?_) (fun unheld ↦ .inr ⟨rfl, unheld⟩) A b _
  cases same
  rw [refuses]
  exact .error (.inl rfl)

/-! ## Calls -/

/-- What a caller does with a workspace. -/
inductive Call (α : Type) where
  | solve {m n : Nat} (A : Mat α m m) (b : Vector α n) (reuse : Bool)
  | invalidate

/-- The workspace after a call, whether or not it has failed; nothing after a breach. -/
def follow (w : Workspace α) : Call α → Option (Workspace α)
  | .solve A b reuse =>
    match solve (Table.ofSquare A) b reuse w with
    | .ok _ w' => some w'
    | .error (.fault _) w' => some w'
    | .error _ _ => none
  | .invalidate => some w.invalidate

/-- The workspace after a list of calls. -/
def run (w : Workspace α) (calls : List (Call α)) : Option (Workspace α) := calls.foldlM follow w

/-- Whether a call sets the solver up anew. -/
def Renews (w : Workspace α) : Call α → Prop
  | .solve (m := m) (n := n) _ _ reuse => m = n ∧ w.setsUp reuse = true
  | .invalidate => False

/-- The last of the calls to set the solver up anew is a solve of `A x = b` with `before`. -/
inductive SetUpBy (o : LinearOptions α) :
    List (Call α) → (before : Workspace α) → {n : Nat} → Mat α n n → Vector α n → Bool → Prop
  | last {calls : List (Call α)} {w : Workspace α} {n : Nat} {A : Mat α n n} {b : Vector α n}
      {reuse : Bool} (ran : run { options := o } calls = some w) (anew : w.setsUp reuse = true) :
      SetUpBy o (calls ++ [.solve A b reuse]) w A b reuse
  | since {calls : List (Call α)} {before w : Workspace α} {n : Nat} {A : Mat α n n}
      {b : Vector α n} {reuse : Bool} {call : Call α} (earlier : SetUpBy o calls before A b reuse)
      (ran : run { options := o } calls = some w) (idle : ¬ w.Renews call) :
      SetUpBy o (calls ++ [call]) before A b reuse

/-- What the last call to set the solver up has left: the setup of its matrix, if the call has
succeeded, and a preconditioner that is not set up, if it has failed at a pivot. -/
def Leaves (o : LinearOptions α) (calls : List (Call α)) (w : Workspace α) : Prop :=
  ∃ (before : Workspace α) (n : Nat) (A : Mat α n n) (b : Vector α n) (reuse : Bool),
    SetUpBy o calls before A b reuse ∧
      ((∃ p, Step.value (solve (Table.ofSquare A) b reuse) before = .ok p) ∧
          o.build (Table.ofSquare A) = .ok w.kept ∨
        ∃ k : Fin n, Step.value (solve (Table.ofSquare A) b reuse) before =
            .error (.fault (.zeroPivot k)) ∧
          o.build (Table.ofSquare A) = .error (.fault (.zeroPivot k)) ∧
          w.preconditioner = Preconditioner.fresh o.preconditioner)

/-- What is known of a workspace after any calls. -/
structure Traced (o : LinearOptions α) (calls : List (Call α)) (w : Workspace α) : Prop where
  options : w.options = o
  reuses : w.reuses = w.current
  leaves : w.current = true → Leaves o calls w

variable {o : LinearOptions α} {calls : List (Call α)} {call : Call α}

theorem follow_solve {A : Mat α m m} {b : Vector α n}
    (followed : w.follow (.solve A b reuse) = some w') :
    (∃ p, solve (Table.ofSquare A) b reuse w = .ok p w') ∨
      ∃ cause, solve (Table.ofSquare A) b reuse w = .error (.fault cause) w' := by
  rw [follow] at followed
  cases result : solve (Table.ofSquare A) b reuse w with
  | ok p t =>
    rw [result] at followed
    cases followed
    exact .inl ⟨p, rfl⟩
  | error e t =>
    rw [result] at followed
    cases e with
    | fault cause =>
      cases followed
      exact .inr ⟨cause, rfl⟩
    | breach => cases followed
    | endless => cases followed

/-- A call that sets nothing up leaves what there was. -/
theorem Leaves.idle (h : Leaves o calls w) (ran : run { options := o } calls = some w)
    (idle : ¬ w.Renews call) (kept : w'.kept = w.kept)
    (preconditioner : w'.preconditioner = w.preconditioner) : Leaves o (calls ++ [call]) w' := by
  obtain ⟨before, n, A, b, reuse, setUp, left⟩ := h
  rw [← kept, ← preconditioner] at left
  exact ⟨before, n, A, b, reuse, setUp.since ran idle, left⟩

omit [Scalar α] in
/-- A setup that has been taken is there to be taken again. -/
theorem reuses_again (reuses : w.reuses = true) (last : Option (SolveStats α)) :
    ({ w with current := true, last := last } : Workspace α).reuses = true := by
  unfold Workspace.reuses at reuses ⊢
  dsimp only
  cases kind : w.options.kind with
  | directLu => rfl
  | gmres restart tol maxIters =>
    rw [kind] at reuses
    exact reuses

namespace Traced

theorem idle (h : Traced o calls w) (ran : run { options := o } calls = some w)
    (idle : ¬ w.Renews call) (last : Option (SolveStats α)) (reuses : w.reuses = true) :
    Traced o (calls ++ [call]) { w with current := true, last := last } where
  options := h.options
  reuses := reuses_again reuses last
  leaves _ := (h.leaves (h.reuses.symm.trans reuses)).idle ran idle rfl rfl

theorem unchanged (h : Traced o calls w) (ran : run { options := o } calls = some w)
    (idle : ¬ w.Renews call) : Traced o (calls ++ [call]) w where
  options := h.options
  reuses := h.reuses
  leaves current := (h.leaves current).idle ran idle rfl rfl

theorem invalidate (h : Traced o calls w) : Traced o (calls ++ [.invalidate]) w.invalidate where
  options := h.options
  reuses := by
    unfold Workspace.reuses Workspace.invalidate
    dsimp only
    split
    · rfl
    · rfl
  leaves := nofun

theorem solved (h : Traced o calls w) (ran : run { options := o } calls = some w)
    {A : Mat α n n} {b : Vector α n} (anew : w.setsUp reuse = true)
    (followed : w.follow (.solve A b reuse) = some w') :
    Traced o (calls ++ [.solve A b reuse]) w' := by
  have ends := ends_solve_anew (A := A) (b := b) anew
  obtain rfl := h.options
  rcases follow_solve followed with ⟨p, result⟩ | ⟨cause, result⟩
  · obtain ⟨built, options, current, reuses⟩ := ends.ok result
    refine ⟨options, reuses.trans current.symm, fun _ ↦ ⟨w, n, A, b, reuse, .last ran anew, .inl ?_⟩⟩
    exact ⟨⟨p, by rw [Step.value, result]⟩, built⟩
  · obtain stop | ⟨refused, k, pivot, left⟩ := ends.error result
    · cases stop
    · subst left
      refine ⟨rfl, h.reuses, fun _ ↦ ⟨w, n, A, b, reuse, .last ran anew, .inr ⟨k, ?_⟩⟩⟩
      exact ⟨by rw [Step.value, result, pivot], by rw [refused, pivot], rfl⟩

/-- What is known of a workspace is known after another call. -/
theorem follow (h : Traced o calls w) (ran : run { options := o } calls = some w)
    (followed : w.follow call = some w') : Traced o (calls ++ [call]) w' := by
  cases call with
  | invalidate =>
    cases followed
    exact h.invalidate
  | solve A b reuse =>
    rename_i m n
    by_cases fits : m = n
    · cases fits
      cases anew : w.setsUp reuse with
      | true => exact h.solved ran anew followed
      | false =>
        have idle : ¬ w.Renews (.solve A b reuse) := by simp [Renews, anew]
        have ends := ends_solve_reusing (A := A) (b := b) anew
        rcases follow_solve followed with ⟨p, result⟩ | ⟨cause, result⟩
        · obtain ⟨reuses, rfl⟩ := ends.ok result
          exact h.idle ran idle (some p.2) reuses
        · obtain rfl := ends.error result
          exact h.unchanged ran idle
    · have idle : ¬ w.Renews (.solve A b reuse) := by simp [Renews, fits]
      have ends : Ends (solve (Table.ofSquare A) b reuse) w _ _ := ends_solve_unfit fits
      rcases follow_solve followed with ⟨p, result⟩ | ⟨cause, result⟩
      · exact (ends.ok result).elim
      · obtain rfl := ends.error result
        exact h.unchanged ran idle

/-- What is known of a workspace is known after more calls. -/
theorem run (h : Traced o calls w) (ran : run { options := o } calls = some w)
    (more : List (Call α)) (left : w.run more = some w') : Traced o (calls ++ more) w' := by
  induction more generalizing calls w with
  | nil =>
    cases left
    rw [List.append_nil]
    exact h
  | cons call more ih =>
    obtain ⟨next, followed, left⟩ := Option.bind_eq_some_iff.1 left
    have run_next : Workspace.run { options := o } (calls ++ [call]) = some next := by
      rw [Workspace.run, List.foldlM_append]
      exact Option.bind_eq_some_iff.2 ⟨w, ran, Option.bind_eq_some_iff.2 ⟨next, followed, rfl⟩⟩
    rw [List.append_cons]
    exact ih (h.follow ran followed) run_next left

theorem new (o : LinearOptions α) : Traced o [] { options := o } where
  options := rfl
  reuses := by
    unfold Workspace.reuses
    split
    · rfl
    · rfl
  leaves := nofun

end Traced

/-- The setup at hand is that of a matrix `A`.  It was made by a solve that has succeeded. -/
structure Finished (w before : Workspace α) (A : Mat α n n) (b : Vector α n) (reuse : Bool) :
    Prop where
  succeeded : ∃ p, Step.value (solve (Table.ofSquare A) b reuse) before = .ok p
  built : w.options.build (Table.ofSquare A) = .ok w.kept
  /-- A solve with reuse has an answer unless a cycle cannot be held.  The answer of a direct
  solver is the one for `A`, whatever matrix is given. -/
  solves : ∀ (A' : Mat α n n) (b' : Vector α n),
    Ends (solve (Table.ofSquare A') b' true) w
      (fun p _ ↦ w.options.kind = .directLu →
        p = (DirectSolver.solve (DirectSolver.factor A) b', SolveStats.direct))
      (fun e _ ↦ e = .breach ∧ w.options.kind.holdsCycle = false)

/-- There is no setup at hand: the incomplete factors of `A` do not exist, and the solve that has
tried to make them has failed. -/
structure Unfinished (w before : Workspace α) (A : Mat α n n) (b : Vector α n) (reuse : Bool) :
    Prop where
  iterative : w.options.kind ≠ .directLu
  incomplete : w.options.preconditioner = .ilu0
  failed : ∃ k : Fin n,
    Step.value (solve (Table.ofSquare A) b reuse) before = .error (.fault (.zeroPivot k)) ∧
      w.options.build (Table.ofSquare A) = .error (.fault (.zeroPivot k))
  kept : w.preconditioner = Preconditioner.fresh .ilu0
  /-- A solve with reuse fails unless it has nothing to iterate for. -/
  fails : ∀ (A' : Mat α n n) (b' : Vector α n),
    Ends (solve (Table.ofSquare A') b' true) w (fun p _ ↦ p.1 = zeros α n ∧ p.2.iterations = 0)
      (fun e _ ↦ e = .fault (.dimension 0 n) ∨
        e = .breach ∧ w.options.kind.holdsCycle = false)

/-- Whatever calls have succeeded or failed: a setup that is called current is what the last call to
set the solver up anew has left.  If that call has succeeded, then it is the finished setup of the
matrix of that call, which any solve with reuse and a right-hand side of its size takes as it is.
If it has failed, then incomplete factors were asked for, and there is no setup at all. -/
theorem current_of_calls (o : LinearOptions α) (calls : List (Call α)) {w : Workspace α}
    (ran : run { options := o } calls = some w) (current : w.current = true) :
    w.options = o ∧
      ∃ (before : Workspace α) (n : Nat) (A : Mat α n n) (b : Vector α n) (reuse : Bool),
        SetUpBy o calls before A b reuse ∧
          (Finished w before A b reuse ∨ Unfinished w before A b reuse) := by
  have traced : Traced o calls w := (Traced.new o).run rfl calls ran
  have reuses : w.reuses = true := traced.reuses.trans current
  obtain ⟨before, n, A, b, reuse, setUp, left⟩ := traced.leaves current
  obtain rfl := traced.options
  refine ⟨rfl, before, n, A, b, reuse, setUp, ?_⟩
  rcases left with ⟨succeeded, built⟩ | ⟨k, failed, refused, kept⟩
  · exact .inl ⟨succeeded, built, ends_solve_built reuses built⟩
  · cases kind : w.options.kind with
    | directLu =>
      rw [LinearOptions.build, kind, FactorCache.factor_ofSquare] at refused
      cases refused
    | gmres restart tol maxIters =>
      have stopped : Preconditioner.build w.options.preconditioner (Table.ofSquare A) =
          .error (.fault (.zeroPivot k)) := by
        rw [LinearOptions.build, kind] at refused
        cases built : Preconditioner.build w.options.preconditioner (Table.ofSquare A) with
        | ok pc =>
          rw [built] at refused
          cases refused
        | error e =>
          rw [built] at refused
          cases refused
          rfl
      have incomplete := (Preconditioner.build_stops _ stopped).1
      rw [incomplete] at kept
      have pcCurrent : w.preconditionerCurrent = true := by
        simpa [Workspace.reuses, kind] using reuses
      exact .inr ⟨by simp [kind], incomplete, ⟨k, failed, refused⟩, kept,
        ends_solve_unfinished kind pcCurrent kept (Nat.zero_lt_of_lt k.isLt)⟩

/-- A system that is solved, another whose first pivot vanishes, and the first one again. -/
theorem current_after_refusal :
    let o : LinearOptions Float := { kind := .gmres 10 1e-12 50, preconditioner := .ilu0 }
    let A : Mat Float 2 2 := ⟨#v[#v[4.0, 1.0], #v[1.0, 4.0]]⟩
    let b : Vector Float 2 := #v[5.0, 5.0]
    let calls : List (Call Float) :=
      [.solve A b false, .solve ⟨#v[#v[0.0, 1.0], #v[1.0, 0.0]]⟩ #v[1.0, 1.0] false]
    ∃ w, run { options := o } calls = some w ∧ w.current = true ∧
      Ends (solve (Table.ofSquare A) b true) w (fun _ _ ↦ False)
        (fun e _ ↦ e = .fault (.dimension 0 2)) ∧
      w.options = o ∧
      ∃ (before : Workspace Float) (n : Nat) (A : Mat Float n n) (b : Vector Float n) (reuse : Bool),
        SetUpBy o calls before A b reuse ∧
          (Finished w before A b reuse ∨ Unfinished w before A b reuse) := by
  intro o A b calls
  have runs : (run { options := o } calls).any (fun w ↦ w.current && decide (Ends
      (solve (Table.ofSquare A) b true) w (fun _ _ ↦ False)
      (fun e _ ↦ e = .fault (.dimension 0 2)))) = true := by decide +kernel
  obtain ⟨w, ran, seen⟩ := (Option.any_eq_true _ _).1 runs
  rw [Bool.and_eq_true, decide_eq_true_eq] at seen
  exact ⟨w, ran, seen.1, seen.2, current_of_calls o calls ran seen.1⟩

end Workspace

end OperatingPoint
