import OperatingPoint.Linear.Workspace
import OperatingPoint.Proofs.Endings
import OperatingPoint.Proofs.ExactScalars

/-!
# Rows in which a linear solve does nothing

Some rows of a system are those of the identity, and the right-hand side is zero there.  A solution
is zero in such a row, and so is everything that a solver makes on its way to one, as far as it is
finite: the residuals, the basis of a Krylov space, whatever a preconditioner makes of them, and an
answer that is given before it has converged.  In exact arithmetic, that is.

The rows are given by a list of numbers, `rows`.  A vector is *null* in them if its entries are, and
a matrix is *plain* in them if they are rows of the identity.

What a workspace keeps of one matrix is used on another, so a solve is told what that is: factors
of a plain matrix, or a preconditioner that keeps vectors null.  That is `Workspace.Founded`.
-/

set_option autoImplicit false

namespace OperatingPoint

open Step
open Scalar (Null)

variable {α : Type} [Scalar α] {n : Nat} {rows : List Nat}

/-- The entries in the listed rows are zero, or not finite. -/
def NullIn (rows : List Nat) (x : Vector α n) : Prop := ∀ i : Fin n, i.val ∈ rows → Null (x.get i)

/-- The listed rows are those of the identity. -/
def Mat.PlainIn {m : Nat} (rows : List Nat) (A : Mat α m n) : Prop :=
  ∀ i : Fin m, i.val ∈ rows → ∀ j : Fin n, A i j = if j.val = i.val then 1 else 0

/-! ## Vectors -/

theorem NullIn.zeros : NullIn rows (zeros α n) := by
  intro i _
  rw [get_zeros]
  exact .zero

section

variable {x y : Vector α n} {A : Mat α n n}

theorem NullIn.difference (exact : Scalar.Exact α) (hx : NullIn rows x) (hy : NullIn rows y) :
    NullIn rows (difference x y) := by
  intro i listed
  rw [get_difference]
  exact (hx i listed).sub exact (hy i listed)

theorem NullIn.addScaled (exact : Scalar.Exact α) (hx : NullIn rows x) (c : α)
    (hy : NullIn rows y) : NullIn rows (addScaled x c y) := by
  intro i listed
  rw [get_addScaled]
  exact (hx i listed).add exact ((hy i listed).mul_left exact c)

theorem NullIn.subScaled (exact : Scalar.Exact α) (hx : NullIn rows x) (c : α)
    (hy : NullIn rows y) : NullIn rows (subScaled x c y) := by
  intro i listed
  rw [get_subScaled]
  exact (hx i listed).sub exact ((hy i listed).mul_left exact c)

theorem NullIn.set (h : NullIn rows x) {i : Fin n} {v : α} (null : i.val ∈ rows → Null v) :
    NullIn rows (x.set i v i.isLt) := by
  intro j listed
  rw [get_set]
  split
  · rename_i same
    exact null (same ▸ listed)
  · exact h j listed

/-- A sum of null terms. -/
theorem null_sum (exact : Scalar.Exact α) {f : Fin n → α} (h : ∀ j, Null (f j)) :
    Null (sum f) := by
  have partly : ∀ (js : List (Fin n)) (s : α), Null s →
      Null (js.foldl (fun s j ↦ s + f j) s) := by
    intro js
    induction js with
    | nil => exact fun _ hs ↦ hs
    | cons j js ih => exact fun s hs ↦ ih _ (hs.add exact (h j))
  exact partly _ _ .zero

/-- A difference of null terms. -/
theorem null_foldl_sub (exact : Scalar.Exact α) {js : List (Fin n)} {f : Fin n → α} {s : α}
    (hs : Null s) (h : ∀ j ∈ js, Null (f j)) : Null (js.foldl (fun s j ↦ s - f j) s) := by
  induction js generalizing s with
  | nil => exact hs
  | cons j js ih =>
    rw [List.forall_mem_cons] at h
    exact ih (hs.sub exact h.1) h.2

theorem NullIn.mulVec (exact : Scalar.Exact α) (plain : A.PlainIn rows) (hx : NullIn rows x) :
    NullIn rows (A.mulVec x) := by
  intro i listed
  rw [Mat.get_mulVec]
  refine null_sum exact fun j ↦ ?_
  rw [plain i listed j]
  split
  · rename_i same
    exact (hx j (same ▸ listed)).mul_left exact 1
  · exact Null.zero.mul_right exact _

/-- The answer of an exact direct solver, where it is finite. -/
theorem DirectSolver.Exact.eq_zero [DirectSolver α] (exact : Scalar.Exact α)
    (direct : DirectSolver.Exact α) (plain : A.PlainIn rows) {b : Vector α n}
    (finite : ∀ i, Scalar.isFinite ((DirectSolver.solve (DirectSolver.factor A) b).get i) = true)
    {i : Fin n} (listed : i.val ∈ rows) (none : b.get i = 0) :
    (DirectSolver.solve (DirectSolver.factor A) b).get i = 0 := by
  let x := DirectSolver.solve (DirectSolver.factor A) b
  have coefficients : ∀ j, Scalar.isFinite (A i j) = true := by
    intro j
    rw [plain i listed j]
    split
    · exact exact.finite_one
    · exact exact.finite_zero
  have solves := direct A b finite i coefficients (by rw [none]; exact exact.finite_zero)
  -- The row of the product is the entry itself: all terms but one are zero.
  have partly : ∀ (js : List (Fin n)) (s : α), js.Nodup → (s = 0 ∨ s = x.get i ∧ i ∉ js) →
      js.foldl (fun s j ↦ s + A i j * x.get j) s = if i ∈ js then x.get i else s := by
    intro js
    induction js with
    | nil => exact fun s _ _ ↦ rfl
    | cons j js ih =>
      intro s distinct so_far
      rw [List.nodup_cons] at distinct
      have finite_s : Scalar.isFinite s = true := by
        rcases so_far with rfl | ⟨rfl, -⟩
        · exact exact.finite_zero
        · exact finite i
      rw [List.foldl_cons, plain i listed j]
      by_cases same : j = i
      · subst same
        obtain rfl : s = 0 := by
          rcases so_far with zero | ⟨-, absent⟩
          · exact zero
          · exact absurd (List.mem_cons_self ..) absent
        rw [if_pos rfl, exact.one_mul (finite j), exact.zero_add (finite j),
          ih _ distinct.2 (.inr ⟨rfl, distinct.1⟩), if_neg distinct.1,
          if_pos (List.mem_cons_self ..)]
      · rw [if_neg fun h ↦ same (Fin.ext h), exact.zero_mul (finite j), exact.add_zero finite_s,
          ih _ distinct.2 (so_far.imp_right fun done ↦
            ⟨done.1, fun later ↦ done.2 (List.mem_cons_of_mem _ later)⟩)]
        simp only [List.mem_cons, Ne.symm same, false_or]
  rw [Mat.get_mulVec, sum, partly _ 0 (List.nodup_finRange n) (.inl rfl),
    if_pos (List.mem_finRange i), none] at solves
  exact solves

end

/-! ## Triangular solves and incomplete factors -/

section

variable {x : Vector α n} {F A : Mat α n n}

theorem NullIn.solveUnitLower (exact : Scalar.Exact α) (plain : F.PlainIn rows)
    (hx : NullIn rows x) : NullIn rows (solveUnitLower F x) := by
  have partly : ∀ (js : List (Fin n)) (z : Vector α n), NullIn rows z →
      NullIn rows (js.foldl (fun z (i : Fin n) ↦
        z.set i (((List.finRange n).filter (· < i)).foldl (fun s j ↦ s - F i j * z.get j) (z.get i))
          i.isLt) z) := by
    intro js
    induction js with
    | nil => exact fun _ hz ↦ hz
    | cons i js ih =>
      refine fun z hz ↦ ih _ (hz.set fun listed ↦ null_foldl_sub exact (hz i listed) ?_)
      intro j before
      have before : j < i := by simpa using (List.mem_filter.1 before).2
      rw [plain i listed j, if_neg (Nat.ne_of_lt before)]
      exact Null.zero.mul_right exact _
  exact partly _ x hx

theorem NullIn.solveUpper (exact : Scalar.Exact α) (plain : F.PlainIn rows) (hx : NullIn rows x) :
    NullIn rows (solveUpper F x) := by
  have partly : ∀ (js : List (Fin n)) (z : Vector α n), NullIn rows z →
      NullIn rows (js.foldl (fun y (i : Fin n) ↦
        y.set i (((List.finRange n).filter (i < ·)).foldl (fun s j ↦ s - F i j * y.get j) (y.get i)
          / F i i) i.isLt) z) := by
    intro js
    induction js with
    | nil => exact fun _ hz ↦ hz
    | cons i js ih =>
      refine fun z hz ↦ ih _ (hz.set fun listed ↦
        (null_foldl_sub exact (hz i listed) ?_).div exact _)
      intro j after
      have after : i < j := by simpa using (List.mem_filter.1 after).2
      rw [plain i listed j, if_neg (Nat.ne_of_gt after)]
      exact Null.zero.mul_right exact _
  exact partly _ x hx

/-- Nothing is eliminated from a row of the identity. -/
theorem eliminateRow_plain (exact : Scalar.Exact α) (plain : A.PlainIn rows) {done : Mat α n n}
    {i : Fin n} (listed : i.val ∈ rows) {r : Vector α n} (run : eliminateRow A done i = .ok r) :
    r = A.rows.get i := by
  have none : ∀ k : Fin n, k < i → ∀ (above row : Vector α n),
      eliminate (A.rows.get i) above k row = .ok row := by
    intro k before above row
    have zero : (A.rows.get i).get k = 0 :=
      (plain i listed k).trans (if_neg (Nat.ne_of_lt before))
    rw [eliminate, zero, if_pos exact.zero_beq_zero]
  have partly : ∀ (ks : List (Fin n)), (∀ k ∈ ks, k < i) → ∀ row : Vector α n,
      ks.foldlM (fun r k ↦ eliminate (A.rows.get i) (done.rows.get k) k r) row = .ok row := by
    intro ks before
    induction ks with
    | nil => exact fun _ ↦ rfl
    | cons k ks ih =>
      intro row
      rw [List.forall_mem_cons] at before
      rw [List.foldlM_cons, none k before.1]
      exact ih before.2 row
  unfold eliminateRow at run
  obtain ⟨row, eliminated, checked⟩ := bind_eq_ok.1 run
  rw [partly _ (fun k before ↦ by simpa using (List.mem_filter.1 before).2)] at eliminated
  cases eliminated
  split at checked
  · cases checked
  · cases checked
    rfl

theorem incompleteFactors_plain (exact : Scalar.Exact α) (plain : A.PlainIn rows)
    (run : incompleteFactors A = .ok F) : F.PlainIn rows := by
  -- The listed rows are never changed.
  have partly : ∀ (is : List (Fin n)) (done F : Mat α n n),
      (∀ i : Fin n, i.val ∈ rows → done.rows.get i = A.rows.get i) →
      is.foldlM (fun done i ↦ do
        let r ← eliminateRow A done i
        return (⟨done.rows.set i r i.isLt⟩ : Mat α n n)) done = (.ok F : Except Stop _) →
      ∀ i : Fin n, i.val ∈ rows → F.rows.get i = A.rows.get i := by
    intro is
    induction is with
    | nil =>
      intro done F same run
      cases run
      exact same
    | cons k is ih =>
      intro done F same run
      rw [List.foldlM_cons] at run
      obtain ⟨done', step, run⟩ := bind_eq_ok.1 run
      obtain ⟨r, eliminated, set⟩ := bind_eq_ok.1 step
      cases set
      refine ih _ F (fun i listed ↦ ?_) run
      rw [get_set]
      split
      · rename_i own
        subst own
        exact eliminateRow_plain exact plain listed eliminated
      · exact same i listed
  intro i listed j
  rw [Mat.entry, partly _ A F (fun _ _ ↦ rfl) run i listed]
  exact plain i listed j

end

/-! ## Preconditioners -/

namespace Preconditioner

/-- A preconditioner that keeps vectors null. -/
def KeepsNull (rows : List Nat) (p : Preconditioner α) : Prop :=
  ∀ {n : Nat} {x z : Vector α n}, NullIn rows x → p.apply x = .ok z → NullIn rows z

theorem keepsNull_diagonal (exact : Scalar.Exact α) (inverses : Array α) :
    (diagonal inverses).KeepsNull rows := by
  intro n x z hx run
  dsimp only [apply] at run
  split at run
  · cases run
    intro i listed
    have entry : (Vector.zipWith (· * ·) ⟨inverses, by assumption⟩ x : Vector α n).get i =
        (⟨inverses, by assumption⟩ : Vector α n).get i * x.get i := Vector.getElem_zipWith ..
    rw [entry]
    exact (hx i listed).mul_left exact _
  · cases run

theorem keepsNull_incomplete (exact : Scalar.Exact α) {m : Nat} {F : Mat α m m}
    (plain : F.PlainIn rows) : (incomplete F).KeepsNull rows := by
  intro n x z hx run
  dsimp only [apply] at run
  split at run
  · rename_i same
    subst same
    cases run
    exact (hx.solveUnitLower exact plain).solveUpper exact plain
  · cases run

/-- A preconditioner that has not been set up. -/
theorem keepsNull_fresh (exact : Scalar.Exact α) {kind : PreconditionerKind}
    {p : Preconditioner α} (h : fresh kind = some p) : p.KeepsNull rows := by
  cases kind with
  | none => cases h
  | jacobi =>
    cases h
    exact keepsNull_diagonal exact _
  | ilu0 =>
    cases h
    exact keepsNull_incomplete exact fun i ↦ i.elim0

/-- One that is set up on a plain matrix. -/
theorem keepsNull_setup (exact : Scalar.Exact α) {A : Mat α n n} (plain : A.PlainIn rows)
    {p p' : Preconditioner α} (h : p.setup (Table.ofSquare A) = .ok p') : p'.KeepsNull rows := by
  cases p with
  | diagonal =>
    cases h
    exact keepsNull_diagonal exact _
  | incomplete =>
    unfold setup at h
    dsimp only at h
    split at h
    · obtain ⟨F, factors, same⟩ := bind_eq_ok.1 h
      cases same
      refine keepsNull_incomplete exact (incompleteFactors_plain exact ?_ factors)
      intro i listed j
      rw [Mat.ofFn_apply]
      exact plain i listed j
    · cases h

end Preconditioner

/-! ## GMRES -/

namespace Gmres

variable {A : Mat α n n} {pc : Option (Preconditioner α)} {cycle cycle' : Cycle α n}

/-- The vectors of a cycle are null. -/
structure Cycle.NullIn (rows : List Nat) (cycle : Cycle α n) : Prop where
  basis : ∀ v ∈ cycle.basis, OperatingPoint.NullIn rows v
  directions : ∀ z ∈ cycle.directions, OperatingPoint.NullIn rows z

theorem Cycle.NullIn.start (exact : Scalar.Exact α) {r : Vector α n}
    (h : OperatingPoint.NullIn rows r) : (Cycle.start r).NullIn rows := by
  refine ⟨fun v listed ↦ ?_, nofun⟩
  rw [List.mem_singleton.1 listed]
  intro i listed
  rw [get_ofFn]
  exact (h i listed).div exact _

theorem orthogonalize_null (exact : Scalar.Exact α) {basis : List (Vector α n)} (cs : List α)
    {w : Vector α n} (h : ∀ v ∈ basis, NullIn rows v) (hw : NullIn rows w) :
    NullIn rows (orthogonalize basis cs w).2 := by
  induction basis generalizing cs w with
  | nil => exact hw
  | cons v basis ih =>
    rw [List.forall_mem_cons] at h
    cases cs with
    | nil => exact hw
    | cons c cs => exact ih cs h.2 (hw.subScaled exact _ h.1)

/-- The vectors after one more iteration: a direction, and unless the space is exhausted what is left
of its image after two passes of orthogonalisation, scaled. -/
theorem Cycle.extend_vectors {exhausted : Bool}
    (run : cycle.extend A pc = .ok (cycle', exhausted)) :
    ∃ z, (pc.elim (.ok (cycle.basis.getLast?.getD (zeros α n)))
        (Preconditioner.apply (cycle.basis.getLast?.getD (zeros α n))) : Except Stop _) = .ok z ∧
      cycle'.directions = cycle.directions ++ [z] ∧
      let pass := orthogonalize cycle.basis (cycle.basis.map fun _ ↦ 0) (A.mulVec z)
      let w := (orthogonalize cycle.basis pass.1 pass.2).2
      cycle'.basis = cycle.basis ∨
        ∃ scale, cycle'.basis = cycle.basis ++ [Vector.ofFn fun i ↦ w.get i * scale] := by
  unfold Cycle.extend at run
  cases pc with
  | none =>
    cases run
    refine ⟨_, rfl, rfl, ?_⟩
    dsimp only
    split
    · exact .inl rfl
    · exact .inr ⟨_, rfl⟩
  | some p =>
    obtain ⟨z, made, run⟩ := bind_eq_ok.1 run
    cases run
    refine ⟨z, made, rfl, ?_⟩
    dsimp only
    split
    · exact .inl rfl
    · exact .inr ⟨_, rfl⟩

theorem Cycle.NullIn.extend (exact : Scalar.Exact α) (plain : A.PlainIn rows)
    (keeps : ∀ p, pc = some p → p.KeepsNull rows) (h : cycle.NullIn rows) {exhausted : Bool}
    (run : cycle.extend A pc = .ok (cycle', exhausted)) : cycle'.NullIn rows := by
  have last : OperatingPoint.NullIn rows (cycle.basis.getLast?.getD (zeros α n)) := by
    cases there : cycle.basis.getLast? with
    | none => exact .zeros
    | some v => exact h.basis v (List.mem_of_getLast? there)
  obtain ⟨z, made, directions, basis⟩ := extend_vectors run
  have hz : OperatingPoint.NullIn rows z := by
    cases pc with
    | none =>
      cases made
      exact last
    | some p => exact keeps p rfl last made
  have hw := orthogonalize_null exact
    (orthogonalize cycle.basis (cycle.basis.map fun _ ↦ 0) (A.mulVec z)).1 h.basis
    (orthogonalize_null exact (cycle.basis.map fun _ ↦ 0) h.basis (hz.mulVec exact plain))
  refine ⟨?_, ?_⟩
  · rcases basis with same | ⟨scale, longer⟩
    · rw [same]
      exact h.basis
    · rw [longer, List.forall_mem_append, List.forall_mem_singleton]
      refine ⟨h.basis, fun i listed ↦ ?_⟩
      rw [get_ofFn]
      exact (hw i listed).mul_right exact _
  · rw [directions, List.forall_mem_append, List.forall_mem_singleton]
    exact ⟨h.directions, hz⟩

theorem iterate_null (exact : Scalar.Exact α) (g : Gmres α) (plain : A.PlainIn rows)
    (keeps : ∀ p, pc = some p → p.KeepsNull rows) (first : α) {budget iteration : Nat}
    (h : cycle.NullIn rows) {iteration' : Nat} {ended : Bool}
    (run : g.iterate A pc first budget iteration cycle = .ok (cycle', iteration', ended)) :
    cycle'.NullIn rows := by
  induction budget generalizing iteration cycle with
  | zero =>
    cases run
    exact h
  | succ budget ih =>
    unfold iterate at run
    obtain ⟨⟨next, exhausted⟩, extended, run⟩ := bind_eq_ok.1 run
    have h' := h.extend exact plain keeps extended
    dsimp only at run
    split at run
    · cases run
      exact h'
    · exact ih h' run

theorem Cycle.NullIn.update (exact : Scalar.Exact α) (h : cycle.NullIn rows) {x : Vector α n}
    (hx : OperatingPoint.NullIn rows x) : OperatingPoint.NullIn rows (cycle.update x) := by
  have partly : ∀ (parts : List (α × Vector α n)) (x : Vector α n),
      (∀ part ∈ parts, OperatingPoint.NullIn rows part.2) → OperatingPoint.NullIn rows x →
      OperatingPoint.NullIn rows (parts.foldl (fun x part ↦ addScaled x part.1 part.2) x) := by
    intro parts
    induction parts with
    | nil => exact fun _ _ hx ↦ hx
    | cons part parts ih =>
      intro x all hx
      rw [List.forall_mem_cons] at all
      exact ih _ all.2 (hx.addScaled exact _ all.1)
  exact partly _ x (fun part listed ↦ h.directions _ (List.of_mem_zip listed).2) hx

theorem cycles_null (exact : Scalar.Exact α) (g : Gmres α) (plain : A.PlainIn rows)
    (keeps : ∀ p, pc = some p → p.KeepsNull rows) {b x x' : Vector α n} (hb : NullIn rows b)
    (first : α) {fuel iteration : Nat} (hx : NullIn rows x) {stats stats' : SolveStats α}
    (run : g.cycles A pc b first fuel iteration x stats = .ok (x', stats')) : NullIn rows x' := by
  induction fuel generalizing iteration x stats with
  | zero =>
    cases run
    exact hx
  | succ fuel ih =>
    unfold cycles at run
    split at run
    · obtain ⟨_, _, run⟩ := bind_eq_ok.1 run
      obtain ⟨⟨cycle, iteration', ended⟩, iterated, run⟩ := bind_eq_ok.1 run
      have started := Cycle.NullIn.start exact (hb.difference exact (hx.mulVec exact plain))
      have hx' := (iterate_null exact g plain keeps first started iterated).update exact hx
      dsimp only at run
      split at run
      · cases run
        exact hx'
      · exact ih hx' run
    · cases run
      exact hx

/-- A solve from zero, whether it converges or not. -/
theorem solveTable_null (exact : Scalar.Exact α) (g : Gmres α) (plain : A.PlainIn rows)
    (keeps : ∀ p, pc = some p → p.KeepsNull rows) {b x : Vector α n} (hb : NullIn rows b)
    {stats : SolveStats α}
    (run : g.solveTable (Table.ofSquare A) pc b (zeros α n) = .ok (x, stats)) : NullIn rows x := by
  unfold solveTable at run
  rw [dif_pos rfl, Table.square?_ofSquare] at run
  dsimp only at run
  unfold solve at run
  dsimp only at run
  split at run
  · cases run
    exact .zeros
  · exact cycles_null exact g plain keeps hb _ .zeros run

end Gmres

/-! ## Workspaces -/

variable [DirectSolver α]

/-- Wherever an answer is finite, it is zero in the listed rows. -/
def ZeroIn (rows : List Nat) (x : Vector α n) : Prop :=
  (∀ i, Scalar.isFinite (x.get i) = true) → ∀ i : Fin n, i.val ∈ rows → x.get i = 0

omit [DirectSolver α] in
theorem NullIn.zeroIn {x : Vector α n} (h : NullIn rows x) : ZeroIn rows x :=
  fun finite i listed ↦ h i listed (finite i)

namespace FactorCache

/-- The factors are those of a plain matrix. -/
def FromPlain (rows : List Nat) (c : FactorCache α) : Prop :=
  ∀ m F, c.stored = some ⟨m, F⟩ →
    ∃ A : Mat α m m, A.PlainIn rows ∧ F = DirectSolver.factor A

theorem factor_fromPlain {A : Mat α n n} (plain : A.PlainIn rows) {c : FactorCache α}
    (run : factor (Table.ofSquare A) = .ok c) : c.FromPlain rows := by
  unfold factor at run
  split at run
  · rename_i square there
    cases run
    rintro m F stored
    cases stored
    refine ⟨square, ?_, rfl⟩
    unfold Table.square? at there
    split at there
    · cases there
      intro i listed j
      rw [Mat.ofFn_apply]
      exact plain _ listed _
    · cases there
  · cases run

theorem solve_zeroIn (exact : Scalar.Exact α) (direct : DirectSolver.Exact α) {c : FactorCache α}
    (plain : c.FromPlain rows) {b x : Vector α n} (zero : ∀ i : Fin n, i.val ∈ rows → b.get i = 0)
    (run : c.solve b = .ok x) : ZeroIn rows x := by
  unfold solve at run
  split at run
  · cases run
  · rename_i m F stored
    obtain ⟨A, plain, rfl⟩ := plain m F stored
    split at run
    · rename_i same
      subst same
      cases run
      exact fun finite i listed ↦ direct.eq_zero exact plain finite listed (zero i listed)
    · cases run

end FactorCache

namespace Workspace

/-- What is kept comes from a plain matrix. -/
structure Founded (rows : List Nat) (w : Workspace α) : Prop where
  factors : w.options.kind = .directLu → w.factors.FromPlain rows
  preconditioner : w.options.kind ≠ .directLu → ∀ p, w.preconditioner = some p → p.KeepsNull rows

variable {A : Mat α n n} {b : Vector α n} {w : Workspace α}

/-- What becomes of a workspace in a solve that stops. -/
structure Stopped (rows : List Nat) (w w' : Workspace α) : Prop where
  current : w'.current = w.current
  founded : w.Founded rows → w'.Founded rows

theorem founded_direct (direct : w.options.kind = .directLu)
    (factors : w.factors.FromPlain rows) : w.Founded rows :=
  ⟨fun _ ↦ factors, fun iterative ↦ absurd direct iterative⟩

theorem solveDirect_zeroIn (exact : Scalar.Exact α) (direct : DirectSolver.Exact α)
    (plain : A.PlainIn rows) (zero : ∀ i : Fin n, i.val ∈ rows → b.get i = 0)
    (kind : w.options.kind = .directLu) {reuse : Bool} (kept : reuse = true → w.Founded rows) :
    Ends (solveDirect (Table.ofSquare A) b reuse) w
      (fun out w' ↦ w'.Founded rows ∧ ZeroIn rows out.1) (fun _ w' ↦ w.Stopped rows w') := by
  unfold solveDirect
  simp only [ends_bind, ends_get, ends_ite, ends_modify, ends_pure, ends_lift]
  refine ⟨fun reused ↦ ?_, fun _ ↦ ⟨fun c factored ↦ ?_, fun _ _ ↦ ⟨rfl, fun h ↦ h⟩⟩⟩
  · rw [Bool.and_eq_true, Bool.and_eq_true] at reused
    have founded := kept reused.1.1
    exact ⟨fun x solved ↦ ⟨founded,
      FactorCache.solve_zeroIn exact direct (founded.factors kind) zero solved⟩,
      fun _ _ ↦ ⟨rfl, fun h ↦ h⟩⟩
  · have fromPlain := FactorCache.factor_fromPlain plain factored
    have founded : ({ w with factors := c } : Workspace α).Founded rows :=
      founded_direct kind fromPlain
    exact ⟨fun x solved ↦ ⟨founded, FactorCache.solve_zeroIn exact direct fromPlain zero solved⟩,
      fun _ _ ↦ ⟨rfl, fun _ ↦ founded⟩⟩

theorem solveIterative_zeroIn (exact : Scalar.Exact α) (plain : A.PlainIn rows)
    (zero : ∀ i : Fin n, i.val ∈ rows → b.get i = 0) (kind : w.options.kind ≠ .directLu)
    {reuse : Bool} (kept : reuse = true → w.Founded rows) (restart : Nat) (tol : α)
    (maxIters : Nat) :
    Ends (solveIterative restart tol maxIters (Table.ofSquare A) b reuse) w
      (fun out w' ↦ w'.Founded rows ∧ ZeroIn rows out.1) (fun _ w' ↦ w.Stopped rows w') := by
  have hb : NullIn rows b := by
    intro i listed
    rw [zero i listed]
    exact .zero
  -- With a preconditioner that keeps vectors null, whether it is the one at hand or a new one.
  have solved : ∀ {pc : Option (Preconditioner α)}, (∀ p, pc = some p → p.KeepsNull rows) →
      ∀ current, let w' : Workspace α := { w with preconditioner := pc, preconditionerCurrent := current }
        Ends (Step.lift ((Gmres.new restart tol maxIters).solveTable (Table.ofSquare A) pc b
          (zeros α n))) w' (fun out w' ↦ w'.Founded rows ∧ ZeroIn rows out.1)
          (fun _ w' ↦ w.Stopped rows w') := by
    intro pc keeps current w'
    have founded : w'.Founded rows := ⟨fun direct ↦ absurd direct kind, fun _ ↦ keeps⟩
    exact ends_lift.2 ⟨fun out run ↦
      ⟨founded, (Gmres.solveTable_null exact _ plain keeps hb run).zeroIn⟩,
      fun _ _ ↦ ⟨rfl, fun _ ↦ founded⟩⟩
  unfold solveIterative
  cases fresh : (Preconditioner.fresh w.options.preconditioner : Option (Preconditioner α)) with
  | none =>
    have nothing : ∀ p : Preconditioner α, none = some p → p.KeepsNull rows := nofun
    simp only [fresh, ends_bind, ends_get, ends_ite, ends_modify]
    refine ⟨fun reused ↦ ?_, fun _ ↦ solved nothing _⟩
    rw [Bool.and_eq_true] at reused
    exact solved ((kept reused.1).preconditioner kind) _
  | some p =>
    have unset : p.KeepsNull rows := Preconditioner.keepsNull_fresh exact fresh
    simp only [fresh, ends_bind, ends_get, ends_ite, ends_modify]
    refine ⟨fun reused ↦ ?_, fun _ ↦ ?_⟩
    · rw [Bool.and_eq_true] at reused
      exact solved ((kept reused.1).preconditioner kind) _
    · refine ends_lift.2 ⟨fun p' set ↦ ?_, fun _ _ ↦ ⟨rfl, fun _ ↦ ?_⟩⟩
      · have keeps : p'.KeepsNull rows := Preconditioner.keepsNull_setup exact plain set
        exact solved (fun q same ↦ by cases same; exact keeps) _
      · exact ⟨fun direct ↦ absurd direct kind, fun _ q same ↦ by cases same; exact unset⟩

/-- A solve of a plain matrix, with what is kept of another one or without. -/
theorem solve_zeroIn (exact : Scalar.Exact α) (direct : DirectSolver.Exact α)
    (plain : A.PlainIn rows) (zero : ∀ i : Fin n, i.val ∈ rows → b.get i = 0) {reuse : Bool}
    (kept : reuse = true → w.Founded rows) :
    Ends (solve (Table.ofSquare A) b reuse) w
      (fun out w' ↦ w'.Founded rows ∧ ZeroIn rows out.1) (fun _ w' ↦ w.Stopped rows w') := by
  have square : ¬ (Table.ofSquare A).rows ≠ n := fun h ↦ h rfl
  unfold solve
  cases kind : w.options.kind with
  | directLu =>
    simp only [kind, if_neg square, ends_bind, ends_get, ends_modify, ends_pure]
    exact (solveDirect_zeroIn exact direct plain zero kind kept).mono
      (fun _ _ solved ↦ ⟨⟨solved.1.factors, solved.1.preconditioner⟩, solved.2⟩)
      fun _ _ stopped ↦ stopped
  | gmres restart tol maxIters =>
    simp only [kind, if_neg square, ends_bind, ends_get, ends_modify, ends_pure]
    exact (solveIterative_zeroIn exact plain zero (by rw [kind]; intro same; cases same) kept restart tol
      maxIters).mono (fun _ _ solved ↦ ⟨⟨solved.1.factors, solved.1.preconditioner⟩, solved.2⟩)
      fun _ _ stopped ↦ stopped

end Workspace

end OperatingPoint
