import OperatingPoint.Dense.Matrix

/-!
# Incomplete factors without fill

`incompleteFactors A` eliminates `A` row by row and keeps an entry only where `A` has one.  The
result holds both factors: below the diagonal the unit lower triangle, the rest the upper one.

Row `i` is row `i` of `A` with the finished rows above it eliminated from left to right.  An
elimination by row `k` happens only where that row of `A` has an entry in column `k`; it divides by
the pivot of row `k`, and changes only entries where that row of `A` has one.
-/

set_option autoImplicit false

namespace OperatingPoint

variable {α : Type} [Scalar α] {n : Nat}

/-- Row `r`, which began as `a`, with finished row `k` eliminated.  Where `a` has no entry in
column `k` nothing happens; otherwise the pivot must not vanish. -/
def eliminate (a : Vector α n) (above : Vector α n) (k : Fin n) (r : Vector α n) :
    Except Stop (Vector α n) :=
  if a.get k == 0 then .ok r
  else if above.get k == 0 then .error (.fault (.zeroPivot k))
  else
    let factor := r.get k / above.get k
    .ok (Vector.ofFn fun j ↦
      if j < k then r.get j
      else if j = k then factor
      else if a.get j == 0 then r.get j
      else r.get j - factor * above.get j)

/-- Eliminates the finished rows from row `i` and checks its pivot. -/
def eliminateRow (A : Mat α n n) (done : Mat α n n) (i : Fin n) : Except Stop (Vector α n) := do
  let above := (List.finRange n).filter (· < i)
  let r ← above.foldlM (fun r k ↦ eliminate (A.rows.get i) (done.rows.get k) k r)
    (A.rows.get i)
  if r.get i == 0 then .error (.fault (.zeroPivot i)) else .ok r

/-- Both incomplete factors of `A` in one matrix. -/
def incompleteFactors (A : Mat α n n) : Except Stop (Mat α n n) :=
  (List.finRange n).foldlM (fun done i ↦ do
    let r ← eliminateRow A done i
    return ⟨done.rows.set i r i.isLt⟩) A

end OperatingPoint
