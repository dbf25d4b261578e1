import Mathlib.Algebra.BigOperators.Fin
import Mathlib.LinearAlgebra.Matrix.RowCol
import OperatingPoint.Dense.Matrix
import OperatingPoint.Proofs.ScalarLine

/-!
# Arithmetic in a field

`Scalar.Arithmetic` says that the elements of a field are among the scalars and that scalars which
are elements are added, subtracted, multiplied and compared as they are.  A quotient is that of the
field unless it is by zero; of a quotient by zero nothing is said.

Vectors and matrices of elements are written with `vector` and `matrix`, and what is calculated
from them is again such a vector.
-/

set_option autoImplicit false

namespace OperatingPoint

/-- The elements of a field among the scalars, calculated with without rounding. -/
structure Scalar.Arithmetic (K α : Type) [Field K] [Scalar α] where
  of : K → α
  zero : of 0 = 0
  add : ∀ p q, of (p + q) = of p + of q
  sub : ∀ p q, of (p - q) = of p - of q
  mul : ∀ p q, of (p * q) = of p * of q
  div : ∀ p {q}, q ≠ 0 → of (p / q) = of p / of q
  beq_iff : ∀ {p q}, (of p == of q) = true ↔ p = q

namespace Scalar.Arithmetic

variable {K α : Type} [Field K] [Scalar α] {n : Nat} (s : Scalar.Arithmetic K α)

theorem beq_zero_iff {p : K} : (s.of p == 0) = true ↔ p = 0 := by
  rw [← s.zero, s.beq_iff]

theorem beq_zero_eq_false_iff {p : K} : (s.of p == 0) = false ↔ p ≠ 0 :=
  Bool.eq_false_iff.trans s.beq_zero_iff.not

/-- A vector of elements. -/
def vector (x : Fin n → K) : Vector α n := Vector.ofFn fun i ↦ s.of (x i)

/-- A square matrix of elements. -/
def matrix (a : Matrix (Fin n) (Fin n) K) : Mat α n n := Mat.ofFn fun i j ↦ s.of (a i j)

@[simp] theorem get_vector (x : Fin n → K) (i : Fin n) : (s.vector x).get i = s.of (x i) :=
  get_ofFn ..

@[simp] theorem matrix_apply (a : Matrix (Fin n) (Fin n) K) (i j : Fin n) :
    s.matrix a i j = s.of (a i j) :=
  Mat.ofFn_apply ..

@[simp] theorem rows_matrix (a : Matrix (Fin n) (Fin n) K) (i : Fin n) :
    (s.matrix a).rows.get i = s.vector (a i) :=
  ext_get fun j ↦ (s.matrix_apply a i j).trans (s.get_vector (a i) j).symm

/-- Replacing an entry of a vector. -/
theorem vector_set (x : Fin n → K) (i : Fin n) (p : K) :
    (s.vector x).set i (s.of p) i.isLt = s.vector (Function.update x i p) := by
  refine ext_get fun j ↦ ?_
  rw [get_set, get_vector, get_vector, Function.update_apply]
  by_cases same : i = j
  · rw [if_pos same, if_pos same.symm]
  · rw [if_neg same, if_neg (Ne.symm same)]

/-- Replacing a row of a matrix. -/
theorem matrix_set (a : Matrix (Fin n) (Fin n) K) (i : Fin n) (row : Fin n → K) :
    (⟨(s.matrix a).rows.set i (s.vector row) i.isLt⟩ : Mat α n n) = s.matrix (a.updateRow i row) := by
  refine Mat.ext fun k j ↦ ?_
  rw [Mat.entry, get_set, matrix_apply, Matrix.updateRow_apply]
  by_cases same : i = k
  · rw [if_pos same, if_pos same.symm, get_vector]
  · rw [if_neg same, if_neg (Ne.symm same), rows_matrix, get_vector]

/-- Elements are added in turn to a first one. -/
theorem foldl_add {β : Type} (g : β → K) (l : List β) (p : K) :
    l.foldl (fun t j ↦ t + s.of (g j)) (s.of p) = s.of (p + (l.map g).sum) := by
  induction l generalizing p with
  | nil => simp
  | cons j l ih => rw [List.foldl_cons, ← s.add, ih, List.map_cons, List.sum_cons, add_assoc]

/-- Elements are subtracted in turn from a first one. -/
theorem foldl_sub {β : Type} (g : β → K) (l : List β) (p : K) :
    l.foldl (fun t j ↦ t - s.of (g j)) (s.of p) = s.of (p - (l.map g).sum) := by
  induction l generalizing p with
  | nil => simp
  | cons j l ih => rw [List.foldl_cons, ← s.sub, ih, List.map_cons, List.sum_cons, sub_sub]

theorem sum_of (f : Fin n → K) : sum (fun j ↦ s.of (f j)) = s.of (∑ j, f j) := by
  rw [sum, ← s.zero, foldl_add, zero_add, Fin.sum_univ_def]

end Scalar.Arithmetic

/-- A line of scalars is a field of scalars. -/
def Scalar.Line.arithmetic {K α : Type} [Field K] [LinearOrder K] [IsStrictOrderedRing K] [Scalar α]
    (line : Scalar.Line K α) : Scalar.Arithmetic K α where
  of := line.of
  zero := line.zero
  add := line.add
  sub := line.sub
  mul := line.mul
  div := line.div
  beq_iff := line.beq_iff

end OperatingPoint
