import OperatingPoint.Linear.Preconditioner
import OperatingPoint.Linear.Stopping

/-!
# Restarted GMRES with right preconditioning

A cycle builds an orthonormal basis of a Krylov space, one vector per iteration, and keeps the
least-squares problem over it triangular by rotations.  The last rotated entry of the right-hand
side is the estimate of the residual norm.  When the cycle ends the solution is updated, the true
residual is computed, and unless that settles the matter another cycle starts.

An iteration orthogonalises the new vector in two passes.  A new vector that vanishes ends the
cycle: the space is exhausted.
-/

set_option autoImplicit false

namespace OperatingPoint

/-- Restarted GMRES: the length of a cycle, and when to stop. -/
structure Gmres (α : Type) where
  restart : Nat
  stopping : Stopping α

namespace Gmres

variable {α : Type} [Scalar α] {n : Nat}

/-- A solver with cycles of at least one iteration. -/
def new (restart : Nat) (tol : α) (maxIters : Nat) : Gmres α := ⟨max restart 1, ⟨tol, maxIters⟩⟩

/-- What is taken for zero in a new vector, a rotation or a pivot. -/
def threshold (α : Type) [Scalar α] : α := 1e-14

/-- One pass of orthogonalisation: takes the part along each basis vector out of `w` in turn and
adds its coefficient to the one at the same place. -/
def orthogonalize : List (Vector α n) → List α → Vector α n → List α × Vector α n
  | v :: vs, c :: cs, w =>
    let part := dot w v
    let (cs', w') := orthogonalize vs cs (subScaled w part v)
    ((c + part) :: cs', w')
  | _, cs, w => (cs, w)

/-- Applies rotations down a column that starts with `a`, and returns the finished entries and the
last one. -/
def rotateColumn : List (α × α) → α → List α → List α × α
  | (c, s) :: rotations, a, b :: column =>
    let (finished, last) := rotateColumn rotations (-s * a + c * b) column
    ((c * a + s * b) :: finished, last)
  | _, a, _ => ([], a)

/-- The rotation that turns `(a, b)` onto the first axis, as cosine and sine. -/
def rotation (a b : α) : α × α :=
  let r := Scalar.hypotenuse a b
  if r < threshold α then (1, 0) else (a / r, b / r)

/-- A cycle in progress, after some number `m` of iterations. -/
structure Cycle (α : Type) (n : Nat) where
  /-- The orthonormal basis, `m + 1` vectors; one less once the space is exhausted. -/
  basis : List (Vector α n)
  /-- The preconditioned basis vectors, `m` of them. -/
  directions : List (Vector α n)
  /-- The columns of the triangle, the `j`-th with `j + 1` entries. -/
  columns : List (List α)
  rotations : List (α × α)
  /-- The rotated right-hand side over the triangle. -/
  rhs : List α
  /-- The rotated right-hand side below the triangle. -/
  estimate : α

/-- A cycle before its first iteration, from the residual `r`. -/
def Cycle.start (r : Vector α n) : Cycle α n :=
  let beta := norm r
  ⟨[Vector.ofFn fun i ↦ r.get i / beta], [], [], [], [], beta⟩

/-- One iteration.  Returns also whether the space is exhausted. -/
def Cycle.extend (A : Mat α n n) (pc : Option (Preconditioner α)) (cycle : Cycle α n) :
    Except Stop (Cycle α n × Bool) := do
  let v := cycle.basis.getLast?.getD (zeros α n)
  let z ← match pc with
    | some pc => pc.apply v
    | none => .ok v
  let (first, w) := orthogonalize cycle.basis (cycle.basis.map fun _ ↦ 0) (A.mulVec z)
  let (column, w) := orthogonalize cycle.basis first w
  let height := norm w
  let exhausted := decide (height < threshold α)
  let (finished, last) := rotateColumn cycle.rotations (column.headD 0) column.tail
  let (c, s) := rotation last height
  let basis :=
    if exhausted then cycle.basis
    else
      let inverse := 1 / height
      cycle.basis ++ [Vector.ofFn fun i ↦ w.get i * inverse]
  return (
    { basis
      directions := cycle.directions ++ [z]
      columns := cycle.columns ++ [finished ++ [c * last + s * height]]
      rotations := cycle.rotations ++ [(c, s)]
      rhs := cycle.rhs ++ [c * cycle.estimate + s * 0]
      estimate := -s * cycle.estimate + c * 0 },
    exhausted)

/-- Iterates at most `budget` times.  Returns the cycle, the number of iterations of the whole solve
and whether the cycle ended before its time. -/
def iterate (g : Gmres α) (A : Mat α n n) (pc : Option (Preconditioner α)) (first : α) :
    (budget iteration : Nat) → Cycle α n → Except Stop (Cycle α n × Nat × Bool)
  | 0, iteration, cycle => .ok (cycle, iteration, false)
  | budget + 1, iteration, cycle => do
    let (cycle, exhausted) ← cycle.extend A pc
    let (done, _) := g.stopping.check (Scalar.abs cycle.estimate) first (iteration + 1)
    if done || exhausted then return (cycle, iteration + 1, true)
    else iterate g A pc first budget (iteration + 1) cycle

/-- The last `k` of the `m` coefficients that solve the triangular system with entries `h i j` and
right-hand side `rhs`.  A coefficient whose pivot vanishes is zero. -/
def backSubstitute (h : Nat → Nat → α) (rhs : Nat → α) (m : Nat) : (k : Nat) → List α
  | 0 => []
  | k + 1 =>
    let below := backSubstitute h rhs m k
    let i := m - (k + 1)
    let s := (below.zipIdx (i + 1)).foldl (fun s y ↦ s - h i y.2 * y.1) (rhs i)
    (if threshold α < Scalar.abs (h i i) then s / h i i else 0) :: below

/-- The coefficients of the directions that minimise the residual over a cycle. -/
def Cycle.coefficients (cycle : Cycle α n) : List α :=
  let m := cycle.columns.length
  backSubstitute (fun i j ↦ (cycle.columns.getD j []).getD i 0) (fun i ↦ cycle.rhs.getD i 0) m m

/-- The solution after a cycle. -/
def Cycle.update (cycle : Cycle α n) (x : Vector α n) : Vector α n :=
  (cycle.coefficients.zip cycle.directions).foldl (fun x part ↦ addScaled x part.1 part.2) x

/-- Insists that a cycle of full length can be held.  A vector of its basis is kept by three words,
and there is one vector more than there are iterations. -/
def reserveCycle (g : Gmres α) : Except Stop Unit := reserve (3 * (g.restart + 1))

/-- Carries out cycles while there is budget, `fuel` of them at most. -/
def cycles (g : Gmres α) (A : Mat α n n) (pc : Option (Preconditioner α)) (b : Vector α n)
    (first : α) : (fuel iteration : Nat) → Vector α n → SolveStats α →
    Except Stop (Vector α n × SolveStats α)
  | 0, _, x, stats => .ok (x, stats)
  | fuel + 1, iteration, x, stats => do
    if iteration < g.stopping.maxIters then
      g.reserveCycle
      let start := Cycle.start (difference b (A.mulVec x))
      let (cycle, iteration, ended) ← g.iterate A pc first g.restart iteration start
      let x := cycle.update x
      let res := norm (difference b (A.mulVec x))
      let stats := ⟨iteration, res, decide (res ≤ g.stopping.tol * first)⟩
      if stats.converged || (ended && decide (g.stopping.maxIters ≤ iteration)) then
        return (x, stats)
      else cycles g A pc b first fuel iteration x stats
    else return (x, stats)

/-- Solves `A x = b` from the initial guess `x`.  A guess without residual is returned as it is;
every cycle uses up budget, so there are at most as many cycles as iterations. -/
def solve (g : Gmres α) (A : Mat α n n) (pc : Option (Preconditioner α)) (b x : Vector α n) :
    Except Stop (Vector α n × SolveStats α) :=
  let first := norm (difference b (A.mulVec x))
  if first == 0 then .ok (x, ⟨0, first, true⟩)
  else g.cycles A pc b first g.stopping.maxIters 0 x ⟨0, first, false⟩

/-- Solves with a matrix of any dimensions.  The guess has the length of the right-hand side; the
matrix has to have it too. -/
def solveTable {k : Nat} (g : Gmres α) (A : Table α) (pc : Option (Preconditioner α))
    (b : Vector α n) (x : Vector α k) : Except Stop (Vector α n × SolveStats α) :=
  if h : k = n then
    match A.square? n with
    | some A => g.solve A pc b (h ▸ x)
    | none => .error .breach
  else .error (.fault (.dimension n k))

end Gmres

end OperatingPoint
