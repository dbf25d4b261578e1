import Mathlib.Analysis.Real.Sqrt
import Mathlib.Analysis.SpecialFunctions.Pow.Real
import Mathlib.LinearAlgebra.Matrix.DotProduct
import OperatingPoint.Proofs.ScalarArithmetic

/-!
# Real numbers as scalars

`RealScalar` calculates with real numbers, without rounding and with every quotient by zero zero.
All its values are finite, so that there is none above all others and none undefined.

What a vector operation does is read off the values of the vectors, which are functions of the
index: `values`.
-/

set_option autoImplicit false

namespace OperatingPoint

open Matrix

/-- A real number. -/
@[ext]
structure RealScalar where
  value : ℝ

namespace RealScalar

open Classical in
noncomputable instance instScalar : Scalar RealScalar where
  zero := ⟨0⟩
  one := ⟨1⟩
  add a b := ⟨a.value + b.value⟩
  sub a b := ⟨a.value - b.value⟩
  mul a b := ⟨a.value * b.value⟩
  div a b := ⟨a.value / b.value⟩
  neg a := ⟨-a.value⟩
  natCast k := ⟨k⟩
  ofScientific m s e := ⟨((OfScientific.ofScientific m s e : ℚ) : ℝ)⟩
  lt a b := a.value < b.value
  le a b := a.value ≤ b.value
  beq a b := decide (a.value = b.value)
  decidableLT a b := inferInstanceAs (Decidable (a.value < b.value))
  decidableLE a b := inferInstanceAs (Decidable (a.value ≤ b.value))
  abs a := ⟨|a.value|⟩
  sqrt a := ⟨√a.value⟩
  exp10 a := ⟨10 ^ a.value⟩
  infinity := ⟨0⟩
  undefined := ⟨0⟩
  isUndefined _ := false
  isFinite _ := true
  floor a := ⌊a.value⌋₊
  halvings a b := Nat.clog 2 ⌈a.value / b.value⌉₊

variable {a b : RealScalar}

@[simp] theorem value_zero : (0 : RealScalar).value = 0 := rfl

@[simp] theorem value_one : (1 : RealScalar).value = 1 := rfl

@[simp] theorem value_add : (a + b).value = a.value + b.value := rfl

@[simp] theorem value_sub : (a - b).value = a.value - b.value := rfl

@[simp] theorem value_mul : (a * b).value = a.value * b.value := rfl

@[simp] theorem value_div : (a / b).value = a.value / b.value := rfl

@[simp] theorem value_neg : (-a).value = -a.value := rfl

@[simp] theorem value_abs : (Scalar.abs a).value = |a.value| := rfl

@[simp] theorem value_sqrt : (Scalar.sqrt a).value = √a.value := rfl

theorem lt_iff : a < b ↔ a.value < b.value := Iff.rfl

theorem le_iff : a ≤ b ↔ a.value ≤ b.value := Iff.rfl

/-- Real numbers are a field of scalars. -/
noncomputable def arithmetic : Scalar.Arithmetic ℝ RealScalar where
  of := mk
  zero := rfl
  add _ _ := rfl
  sub _ _ := rfl
  mul _ _ := rfl
  div _ _ _ := rfl
  beq_iff := decide_eq_true_iff

end RealScalar

variable {n : Nat}

/-! ## The values of vectors -/

/-- The values of a vector. -/
def values (x : Vector RealScalar n) : Fin n → ℝ := fun i ↦ (x.get i).value

theorem vector_values (x : Vector RealScalar n) : RealScalar.arithmetic.vector (values x) = x :=
  ext_get fun i ↦ RealScalar.arithmetic.get_vector _ i

theorem values_injective {x y : Vector RealScalar n} (same : values x = values y) : x = y := by
  rw [← vector_values x, same, vector_values]

@[simp] theorem values_ofFn (f : Fin n → RealScalar) :
    values (Vector.ofFn f) = fun i ↦ (f i).value := by
  funext i
  rw [values, get_ofFn]

@[simp] theorem values_zeros : values (zeros RealScalar n) = 0 := by
  funext i
  rw [values, get_zeros]
  rfl

@[simp] theorem values_addScaled (x : Vector RealScalar n) (c : RealScalar)
    (y : Vector RealScalar n) : values (addScaled x c y) = values x + c.value • values y :=
  values_ofFn _

@[simp] theorem values_subScaled (x : Vector RealScalar n) (c : RealScalar)
    (y : Vector RealScalar n) : values (subScaled x c y) = values x - c.value • values y :=
  values_ofFn _

@[simp] theorem values_difference (x y : Vector RealScalar n) :
    values (difference x y) = values x - values y :=
  values_ofFn _

theorem value_sum (f : Fin n → RealScalar) : (sum f).value = ∑ i, (f i).value :=
  congrArg RealScalar.value (RealScalar.arithmetic.sum_of fun i ↦ (f i).value)

@[simp] theorem value_dot (x y : Vector RealScalar n) : (dot x y).value = values x ⬝ᵥ values y :=
  value_sum _

@[simp] theorem value_norm (x : Vector RealScalar n) : (norm x).value = √(values x ⬝ᵥ values x) := by
  rw [norm, RealScalar.value_sqrt, value_dot]

/-- The unit vector in the direction of a vector, if it has one. -/
noncomputable def direction (x : Vector RealScalar n) : Fin n → ℝ := (1 / (norm x).value) • values x

theorem dotProduct_self_nonneg (u : Fin n → ℝ) : 0 ≤ u ⬝ᵥ u :=
  Finset.sum_nonneg fun i _ ↦ mul_self_nonneg (u i)

theorem norm_sq (x : Vector RealScalar n) : (norm x).value ^ 2 = values x ⬝ᵥ values x := by
  rw [value_norm, Real.sq_sqrt (dotProduct_self_nonneg _)]

theorem values_of_norm {x : Vector RealScalar n} (zero : (norm x).value = 0) : values x = 0 := by
  rw [← dotProduct_self_eq_zero, ← norm_sq, zero, zero_pow two_ne_zero]

theorem norm_smul_direction (x : Vector RealScalar n) : (norm x).value • direction x = values x := by
  by_cases zero : (norm x).value = 0
  · rw [zero, zero_smul, values_of_norm zero]
  · rw [direction, smul_smul, mul_one_div_cancel zero, one_smul]

theorem direction_unit {x : Vector RealScalar n} (nonzero : (norm x).value ≠ 0) :
    direction x ⬝ᵥ direction x = 1 := by
  rw [direction, smul_dotProduct, dotProduct_smul, ← norm_sq, smul_eq_mul, smul_eq_mul]
  field_simp

/-- The values of a matrix. -/
def Mat.values (A : Mat RealScalar n n) : Matrix (Fin n) (Fin n) ℝ := fun i j ↦ (A i j).value

@[simp] theorem values_mulVec (A : Mat RealScalar n n) (x : Vector RealScalar n) :
    values (A.mulVec x) = A.values *ᵥ values x := by
  funext i
  rw [values, Mat.get_mulVec]
  exact value_sum _

end OperatingPoint
