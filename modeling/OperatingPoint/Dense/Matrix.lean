import OperatingPoint.Dense.Vector
import OperatingPoint.Step

/-!
# Dense matrices

A matrix stores its rows.  It is read through `A i j`; an operation builds its result with `ofFn`
or `set`, and the two lemmas about these say all that is needed about the entries.

A `Table` is a matrix together with its dimensions, for those places where they are known only when
the program runs.  There a promise about lengths may be broken, and the operation stops.
-/

set_option autoImplicit false

namespace OperatingPoint

/-- A matrix of `m` rows and `n` columns. -/
structure Mat (α : Type) (m n : Nat) where
  rows : Vector (Vector α n) m

namespace Mat

variable {α : Type} {m n : Nat}

/-- The entry in row `i` and column `j`. -/
def entry (A : Mat α m n) (i : Fin m) (j : Fin n) : α := (A.rows.get i).get j

instance instCoeFun : CoeFun (Mat α m n) (fun _ ↦ Fin m → Fin n → α) := ⟨entry⟩

/-- The matrix with the given entries. -/
def ofFn (f : Fin m → Fin n → α) : Mat α m n :=
  ⟨Vector.ofFn fun i ↦ Vector.ofFn fun j ↦ f i j⟩

@[simp] theorem ofFn_apply (f : Fin m → Fin n → α) (i : Fin m) (j : Fin n) :
    ofFn f i j = f i j := by
  simp [ofFn, entry]

@[ext] theorem ext {A B : Mat α m n} (h : ∀ i j, A i j = B i j) : A = B := by
  obtain ⟨a⟩ := A
  obtain ⟨b⟩ := B
  congr
  exact ext_get fun i ↦ ext_get fun j ↦ h i j

/-- The matrix with one entry replaced. -/
def set (A : Mat α m n) (i : Fin m) (j : Fin n) (v : α) : Mat α m n :=
  ⟨A.rows.set i ((A.rows.get i).set j v j.isLt) i.isLt⟩

theorem set_apply (A : Mat α m n) (i i' : Fin m) (j j' : Fin n) (v : α) :
    A.set i j v i' j' = if i = i' ∧ j = j' then v else A i' j' := by
  simp only [entry, set, get_set]
  by_cases hi : i = i'
  · by_cases hj : j = j' <;> simp [get_set, hi, hj]
  · simp [hi]

/-- The matrix with row `i` replaced. -/
def setRow (A : Mat α m n) (i : Fin m) (r : Fin n → α) : Mat α m n :=
  ⟨A.rows.set i (Vector.ofFn r) i.isLt⟩

theorem setRow_apply (A : Mat α m n) (i i' : Fin m) (r : Fin n → α) (j : Fin n) :
    A.setRow i r i' j = if i = i' then r j else A i' j := by
  simp only [entry, setRow, get_set]
  by_cases hi : i = i' <;> simp [hi]

variable [Scalar α]

/-- The matrix of zeros. -/
def zero (α : Type) [Scalar α] (m n : Nat) : Mat α m n := ofFn fun _ _ ↦ 0

/-- `A x`. -/
def mulVec (A : Mat α m n) (x : Vector α n) : Vector α m :=
  Vector.ofFn fun i ↦ sum fun j ↦ A i j * x.get j

/-- `Aᵀ x`. -/
def transposeMulVec (A : Mat α m n) (x : Vector α m) : Vector α n :=
  Vector.ofFn fun j ↦ sum fun i ↦ A i j * x.get i

/-- Whether row `i` holds nothing but zeros. -/
def rowIsZero (A : Mat α m n) (i : Fin m) : Bool := (List.finRange n).all fun j ↦ A i j == 0

@[simp] theorem get_mulVec (A : Mat α m n) (x : Vector α n) (i : Fin m) :
    (A.mulVec x).get i = sum fun j ↦ A i j * x.get j := by simp [mulVec]

/-! ## Access by numbers

A partition of unknowns holds plain numbers.  What is done at such a number is refused when the
matrix has no such row or no such diagonal entry. -/

/-- The matrix with one entry replaced. -/
def setEntry (A : Mat α m n) (i j : Nat) (v : α) : Except Stop (Mat α m n) :=
  if h : i < m ∧ j < n then .ok (A.set ⟨i, h.1⟩ ⟨j, h.2⟩ v) else .error .breach

/-- The diagonal entry in row `i`. -/
def diagonalEntry (A : Mat α m n) (i : Nat) : Except Stop α :=
  if h : i < m ∧ i < n then .ok (A ⟨i, h.1⟩ ⟨i, h.2⟩) else .error .breach

/-- The matrix with the diagonal entry in row `i` replaced. -/
def setDiagonalEntry (A : Mat α m n) (i : Nat) (v : α) : Except Stop (Mat α m n) :=
  if h : i < m ∧ i < n then .ok (A.set ⟨i, h.1⟩ ⟨i, h.2⟩ v) else .error .breach

/-- The matrix with row `i` replaced by that of the identity. -/
def setIdentityRow (A : Mat α m n) (i : Nat) : Except Stop (Mat α m n) :=
  if h : i < m ∧ i < n then .ok (A.setRow ⟨i, h.1⟩ fun j ↦ if (j : Nat) = i then 1 else 0)
  else .error .breach

/-- Whether row `i` holds nothing but zeros.  A row that is not there holds nothing, and is refused
only where there is a column to look at. -/
def rowIsZero? (A : Mat α m n) (i : Nat) : Except Stop Bool :=
  if h : i < m then .ok (A.rowIsZero ⟨i, h⟩)
  else if n = 0 then .ok true
  else .error .breach

/-- The diagonal, as long as the shorter side. -/
def diagonal (A : Mat α m n) : List α :=
  (List.range (min m n)).filterMap fun i ↦
    if h : i < m ∧ i < n then some (A ⟨i, h.1⟩ ⟨i, h.2⟩) else none

/-- The matrix with its diagonal replaced. -/
def replaceDiagonal (A : Mat α m n) (d : List α) : Except Stop (Mat α m n) :=
  if d.length = min m n then
    .ok (ofFn fun i j ↦ if (i : Nat) = j then d.getD i (A i j) else A i j)
  else .error .breach

end Mat

/-- A matrix of any dimensions. -/
structure Table (α : Type) where
  rows : Nat
  columns : Nat
  entries : Mat α rows columns

namespace Table

variable {α : Type} [Scalar α]

/-- The matrix with the listed rows, as wide as the first of them.  No row may be shorter. -/
def ofRows (rows : Array (Array α)) : Except Stop (Table α) :=
  let columns := (rows.getD 0 #[]).size
  if rows.all fun row ↦ decide (columns ≤ row.size) then
    .ok ⟨rows.size, columns, Mat.ofFn fun i j ↦ (rows.getD i #[]).getD j 0⟩
  else .error .breach

/-- A square matrix as a table. -/
def ofSquare {n : Nat} (A : Mat α n n) : Table α := ⟨n, n, A⟩

/-- The matrix, if it is square of size `n`. -/
def square? (A : Table α) (n : Nat) : Option (Mat α n n) :=
  if h : A.rows = n ∧ A.columns = n then
    some (Mat.ofFn fun i j ↦ A.entries (i.cast h.1.symm) (j.cast h.2.symm))
  else none

omit [Scalar α] in
@[simp] theorem square?_ofSquare {n : Nat} (A : Mat α n n) : (ofSquare A).square? n = some A := by
  rw [square?, dif_pos ⟨rfl, rfl⟩]
  exact congrArg some (Mat.ext fun i j ↦ Mat.ofFn_apply _ i j)

/-- `A x`, into a vector of the given length. -/
def mulVec (A : Table α) (x : Array α) (length : Nat) : Except Stop (Array α) :=
  if h : x.size = A.columns ∧ length = A.rows then .ok (A.entries.mulVec ⟨x, h.1⟩).toArray
  else .error .breach

/-- `Aᵀ x`, into a vector of the given length. -/
def transposeMulVec (A : Table α) (x : Array α) (length : Nat) : Except Stop (Array α) :=
  if h : x.size = A.rows ∧ length = A.columns then .ok (A.entries.transposeMulVec ⟨x, h.1⟩).toArray
  else .error .breach

end Table

end OperatingPoint
