import OperatingPoint.Linear.Direct
import OperatingPoint.Linear.Triangular

/-!
# Dense factors with full pivoting

Gaussian elimination that moves, at every step, the entry of largest absolute value of what is left
to the diagonal.  Rows and columns are exchanged in the stored matrix and the exchanges are
recorded, so that the stored matrix holds both triangles of the permuted one.

When nothing but zeros is left the elimination ends there.  The zeros on the diagonal then turn up
in a solve as entries that are not finite.
-/

set_option autoImplicit false

namespace OperatingPoint

/-- Both triangles of a matrix whose rows and columns were exchanged: row `k` of the factors comes
from row `rowAt.get k` of the matrix, and column `k` from column `columnAt.get k`. -/
structure FullPivot (α : Type) (n : Nat) where
  factors : Mat α n n
  rowAt : Vector (Fin n) n
  columnAt : Vector (Fin n) n

namespace FullPivot

variable {α : Type} [Scalar α] {n : Nat}

/-- The exchange of two indices. -/
def exchange (a b i : Fin n) : Fin n := if i = a then b else if i = b then a else i

/-- The place of the largest absolute value among rows and columns from `k` on, in the first column
and there in the first row that has it; nothing when they hold no value above zero. -/
def pivot (A : Mat α n n) (k : Fin n) : Option (Fin n × Fin n) :=
  let tail := (List.finRange n).filter (k ≤ ·)
  let places := tail.flatMap fun j ↦ tail.map fun i ↦ (i, j)
  (places.foldl (fun (best : Option (Fin n × Fin n) × α) place ↦
    let size := Scalar.abs (A place.1 place.2)
    if best.2 < size then (some place, size) else best) (none, 0)).1

/-- Moves the entry at row `p` and column `q` to place `k` of the diagonal. -/
def exchangeWith (F : FullPivot α n) (k p q : Fin n) : FullPivot α n where
  factors := Mat.ofFn fun i j ↦ F.factors (exchange k p i) (exchange k q j)
  rowAt := Vector.ofFn fun i ↦ F.rowAt.get (exchange k p i)
  columnAt := Vector.ofFn fun j ↦ F.columnAt.get (exchange k q j)

/-- Eliminates column `k` below the diagonal and leaves the multipliers there. -/
def eliminateBelow (A : Mat α n n) (k : Fin n) : Mat α n n :=
  ⟨Vector.ofFn fun i ↦
    if k < i then
      let factor := A i k / A k k
      Vector.ofFn fun j ↦
        if k < j then A i j - factor * A k j else if j = k then factor else A i j
    else A.rows.get i⟩

/-- Carries out the listed steps of the elimination, up to the first that finds no pivot. -/
def eliminateAll : List (Fin n) → FullPivot α n → FullPivot α n
  | [], F => F
  | k :: ks, F =>
    match pivot F.factors k with
    | none => F
    | some (p, q) =>
      let G := F.exchangeWith k p q
      eliminateAll ks { G with factors := eliminateBelow G.factors k }

/-- The factors of a matrix. -/
def ofMatrix (A : Mat α n n) : FullPivot α n :=
  eliminateAll (List.finRange n) ⟨A, Vector.ofFn id, Vector.ofFn id⟩

/-- Solves with the factors. -/
def solve (F : FullPivot α n) (b : Vector α n) : Vector α n :=
  let permuted := Vector.ofFn fun k ↦ b.get (F.rowAt.get k)
  let solved := solveUpper F.factors (solveUnitLower F.factors permuted)
  (List.finRange n).foldl (fun x k ↦
    x.set (F.columnAt.get k) (solved.get k) (F.columnAt.get k).isLt) (zeros α n)

end FullPivot

instance FullPivot.instDirectSolver (α : Type) [Scalar α] : DirectSolver α where
  Factors := FullPivot α
  factor := FullPivot.ofMatrix
  solve := FullPivot.solve

end OperatingPoint
