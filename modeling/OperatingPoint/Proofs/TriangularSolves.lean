import Mathlib.LinearAlgebra.Matrix.Block
import Mathlib.LinearAlgebra.Matrix.NonsingularInverse
import OperatingPoint.Linear.Triangular
import OperatingPoint.Proofs.ScalarArithmetic

/-!
# Triangular solves are exact

Where arithmetic is that of a field, the two triangular solves give the solutions of the two
triangular systems that one matrix holds, and there is no other solution, provided that no entry of
the diagonal is zero.

Both solves overwrite the right-hand side from one end to the other.  An entry is calculated from
what it was and from entries that have got their last value, so that after the sweep it is what it
would have been calculated to be from the result: `foldl_update`.
-/

set_option autoImplicit false

namespace OperatingPoint

open Matrix

variable {K α : Type} [Field K] [Scalar α] {n : Nat}

/-! ## The two triangles of a matrix -/

/-- The lower triangle, with ones on the diagonal. -/
def unitLower (f : Matrix (Fin n) (Fin n) K) : Matrix (Fin n) (Fin n) K := fun i j ↦
  if j < i then f i j else if i = j then 1 else 0

/-- The upper triangle, with the diagonal. -/
def upper (f : Matrix (Fin n) (Fin n) K) : Matrix (Fin n) (Fin n) K := fun i j ↦
  if i ≤ j then f i j else 0

section

variable (f : Matrix (Fin n) (Fin n) K)

/-- A row of the lower triangle. -/
theorem sum_unitLower (i : Fin n) (g : Fin n → K) :
    ∑ k, unitLower f i k * g k = ∑ k with k < i, f i k * g k + g i := by
  have split : ∀ k, unitLower f i k * g k =
      (if k < i then f i k * g k else 0) + if i = k then g k else 0 := by
    intro k
    unfold unitLower
    rcases lt_trichotomy k i with below | rfl | above
    · rw [if_pos below, if_pos below, if_neg (ne_of_gt below), add_zero]
    · rw [if_neg (lt_irrefl k), if_neg (lt_irrefl k), if_pos rfl, if_pos rfl, one_mul, zero_add]
    · rw [if_neg above.not_gt, if_neg above.not_gt, if_neg (ne_of_lt above), if_neg (ne_of_lt above),
        zero_mul, zero_add]
  rw [Finset.sum_congr rfl fun k _ ↦ split k, Finset.sum_add_distrib, Finset.sum_ite_eq,
    if_pos (Finset.mem_univ i), Finset.sum_filter]

/-- A row of the upper triangle. -/
theorem sum_upper (i : Fin n) (g : Fin n → K) :
    ∑ k, upper f i k * g k = f i i * g i + ∑ k with i < k, f i k * g k := by
  have split : ∀ k, upper f i k * g k =
      (if i = k then f i k * g k else 0) + if i < k then f i k * g k else 0 := by
    intro k
    unfold upper
    rcases lt_trichotomy i k with below | rfl | above
    · rw [if_pos below.le, if_neg (ne_of_lt below), if_pos below, zero_add]
    · rw [if_pos (le_refl i), if_pos rfl, if_neg (lt_irrefl i), add_zero]
    · rw [if_neg above.not_ge, if_neg (ne_of_gt above), if_neg above.not_gt, zero_mul, zero_add]
  rw [Finset.sum_congr rfl fun k _ ↦ split k, Finset.sum_add_distrib, Finset.sum_ite_eq,
    if_pos (Finset.mem_univ i), Finset.sum_filter]

theorem isUnit_unitLower : IsUnit (unitLower f) := by
  have lower : (unitLower f).IsLowerTriangular := by
    intro i j above
    have above : i < j := above
    rw [unitLower, if_neg above.not_gt, if_neg (ne_of_lt above)]
  have diagonal : ∀ i, unitLower f i i = 1 := fun i ↦ by
    rw [unitLower, if_neg (lt_irrefl i), if_pos rfl]
  rw [Matrix.isUnit_iff_isUnit_det, Matrix.det_of_isLowerTriangular _ lower]
  simp only [diagonal, Finset.prod_const_one, isUnit_one]

variable {f}

theorem isUnit_upper (pivots : ∀ i, f i i ≠ 0) : IsUnit (upper f) := by
  have triangular : (upper f).IsUpperTriangular := fun i j below ↦ if_neg (not_le_of_gt below)
  have diagonal : ∀ i, upper f i i = f i i := fun i ↦ if_pos (le_refl i)
  rw [Matrix.isUnit_iff_isUnit_det, Matrix.det_of_isUpperTriangular triangular, isUnit_iff_ne_zero]
  simpa only [diagonal] using Finset.prod_ne_zero_iff.2 fun i _ ↦ pivots i

end

/-! ## Sweeps -/

omit [Field K] in
/-- A sweep overwrites the listed entries in turn.  If what an entry becomes depends, besides on what
it was, on entries that come before it only, then it is what it becomes in view of the result. -/
theorem foldl_update {r : Fin n → Fin n → Prop} (asymmetric : ∀ i j, r i j → ¬ r j i)
    {g : Fin n → K → (Fin n → K) → K}
    (reads : ∀ i p z z', (∀ j, r j i → z j = z' j) → g i p z = g i p z')
    {l : List (Fin n)} (ordered : l.Pairwise r) (z : Fin n → K) (i : Fin n) :
    l.foldl (fun z i ↦ Function.update z i (g i (z i) z)) z i =
      if i ∈ l then g i (z i) (l.foldl (fun z i ↦ Function.update z i (g i (z i) z)) z) else z i := by
  have irreflexive : ∀ i, ¬ r i i := fun i h ↦ asymmetric i i h h
  induction l generalizing z i with
  | nil => rw [if_neg List.not_mem_nil, List.foldl_nil]
  | cons k rest ih =>
    rw [List.pairwise_cons] at ordered
    rw [List.foldl_cons, ih ordered.2]
    -- Entries before `k` have got their last value when it is overwritten.
    have settled : ∀ j, r j k →
        rest.foldl (fun z i ↦ Function.update z i (g i (z i) z)) (Function.update z k (g k (z k) z)) j
          = z j := by
      intro j before
      have absent : j ∉ rest := fun later ↦ asymmetric j k before (ordered.1 j later)
      have other : j ≠ k := fun same ↦ irreflexive k (same ▸ before)
      rw [ih ordered.2, if_neg absent, Function.update_of_ne other]
    by_cases same : i = k
    · subst same
      have absent : i ∉ rest := fun later ↦ irreflexive i (ordered.1 i later)
      rw [if_neg absent, Function.update_self, if_pos List.mem_cons_self]
      exact reads i (z i) _ _ fun j before ↦ (settled j before).symm
    · rw [Function.update_of_ne same]
      simp only [List.mem_cons, same, false_or]

theorem sum_filter_finRange (p : Fin n → Prop) [DecidablePred p] (g : Fin n → K) :
    (((List.finRange n).filter (p ·)).map g).sum = ∑ k with p k, g k := by
  rw [← List.sum_toFinset _ ((List.nodup_finRange n).filter _), List.toFinset_filter,
    List.toFinset_finRange]
  simp only [decide_eq_true_eq]

namespace Scalar.Arithmetic

variable (s : Scalar.Arithmetic K α) (f : Matrix (Fin n) (Fin n) K) (x : Fin n → K)

/-- A sweep over scalars that are elements of the field is one over the elements. -/
theorem foldl_vector {step : Vector α n → Fin n → Vector α n} {g : Fin n → K → (Fin n → K) → K}
    (steps : ∀ i z, step (s.vector z) i = s.vector (Function.update z i (g i (z i) z)))
    (l : List (Fin n)) :
    l.foldl step (s.vector x) =
      s.vector (l.foldl (fun z i ↦ Function.update z i (g i (z i) z)) x) := by
  induction l generalizing x with
  | nil => rfl
  | cons i l ih => rw [List.foldl_cons, steps, ih, List.foldl_cons]

/-- The terms of a row that are known are subtracted. -/
theorem subtract_known (p : Fin n → Prop) [DecidablePred p] (i : Fin n) (z : Fin n → K) :
    ((List.finRange n).filter (p ·)).foldl
        (fun t j ↦ t - s.matrix f i j * (s.vector z).get j) ((s.vector z).get i) =
      s.of (z i - ∑ j with p j, f i j * z j) := by
  simp only [matrix_apply, get_vector, ← s.mul, foldl_sub, sum_filter_finRange]

/-- **Forward substitution** solves with the lower triangle. -/
theorem solveUnitLower_vector :
    ∃ z, solveUnitLower (s.matrix f) (s.vector x) = s.vector z ∧ unitLower f *ᵥ z = x := by
  refine ⟨_, s.foldl_vector x (g := fun i p z ↦ p - ∑ j with j < i, f i j * z j)
    (fun i z ↦ by rw [s.subtract_known f (· < i) i z, s.vector_set]) (List.finRange n),
    funext fun i ↦ ?_⟩
  rw [Matrix.mulVec, dotProduct, sum_unitLower]
  have entry := foldl_update (r := (· < ·)) (fun _ _ h ↦ h.not_gt)
    (g := fun i p z ↦ p - ∑ j with j < i, f i j * z j) ?_ (List.pairwise_lt_finRange n) x i
  · rw [if_pos (List.mem_finRange i)] at entry
    rw [entry, add_sub_cancel]
  · intro i p z z' same
    refine congrArg (p - ·) (Finset.sum_congr rfl fun j before ↦ ?_)
    rw [same j (Finset.mem_filter.1 before).2]

/-- **Back substitution** solves with the upper triangle, if there is no zero on its diagonal. -/
theorem solveUpper_vector (pivots : ∀ i, f i i ≠ 0) :
    ∃ y, solveUpper (s.matrix f) (s.vector x) = s.vector y ∧ upper f *ᵥ y = x := by
  refine ⟨_, s.foldl_vector x (g := fun i p y ↦ (p - ∑ j with i < j, f i j * y j) / f i i)
    (fun i y ↦ by
      rw [s.subtract_known f (i < ·) i y, s.matrix_apply, ← s.div _ (pivots i), s.vector_set])
    (List.finRange n).reverse, funext fun i ↦ ?_⟩
  rw [Matrix.mulVec, dotProduct, sum_upper]
  have entry := foldl_update (r := (· > ·)) (fun _ _ h ↦ h.not_gt)
    (g := fun i p y ↦ (p - ∑ j with i < j, f i j * y j) / f i i) ?_
    (List.pairwise_reverse.2 (List.pairwise_lt_finRange n)) x i
  · rw [if_pos (List.mem_reverse.2 (List.mem_finRange i))] at entry
    rw [entry, mul_div_cancel₀ _ (pivots i), sub_add_cancel]
  · intro i p z z' same
    refine congrArg (fun t ↦ (p - t) / f i i) (Finset.sum_congr rfl fun j after ↦ ?_)
    rw [same j (Finset.mem_filter.1 after).2]

end Scalar.Arithmetic

end OperatingPoint
