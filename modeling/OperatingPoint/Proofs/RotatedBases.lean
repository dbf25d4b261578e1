import Mathlib.Data.List.GetD
import OperatingPoint.Linear.Gmres
import OperatingPoint.Proofs.RealScalars

/-!
# Orthonormal bases under rotations

What the parts of a GMRES cycle do with real numbers.  Orthogonalisation splits a vector into a
combination of the basis and a rest that is orthogonal to it, whatever is added to the coefficients
on the way.  Rotations of a column are rotations of the basis the other way round: `frame` rotates
the basis, and a column that is rotated combines the rotated basis to the same vector.  Back
substitution solves the triangular system if no pivot vanishes.
-/

set_option autoImplicit false

namespace OperatingPoint

open Matrix

variable {n : Nat}

/-! ## Combinations -/

/-- The combination of vectors with coefficients. -/
def combine : List RealScalar → List (Fin n → ℝ) → Fin n → ℝ
  | c :: cs, v :: vs => c.value • v + combine cs vs
  | _, _ => 0

@[simp] theorem combine_nil (vs : List (Fin n → ℝ)) : combine [] vs = 0 := by
  rw [combine]
  rintro _ _ _ _ ⟨⟩

@[simp] theorem combine_cons (c : RealScalar) (cs : List RealScalar) (v : Fin n → ℝ)
    (vs : List (Fin n → ℝ)) : combine (c :: cs) (v :: vs) = c.value • v + combine cs vs := rfl

theorem combine_concat {cs : List RealScalar} {vs : List (Fin n → ℝ)} (same : cs.length = vs.length)
    (c : RealScalar) (v : Fin n → ℝ) :
    combine (cs ++ [c]) (vs ++ [v]) = combine cs vs + c.value • v := by
  induction cs generalizing vs with
  | nil =>
    obtain rfl := List.length_eq_zero_iff.1 same.symm
    simp
  | cons d cs ih =>
    cases vs with
    | nil => cases same
    | cons u vs =>
      rw [List.cons_append, List.cons_append, combine_cons, combine_cons, ih (Nat.succ.inj same),
        add_assoc]

/-- Vectors beyond the coefficients do not count. -/
theorem combine_append_right {cs : List RealScalar} {vs : List (Fin n → ℝ)}
    (short : cs.length ≤ vs.length) (ws : List (Fin n → ℝ)) :
    combine cs (vs ++ ws) = combine cs vs := by
  induction cs generalizing vs with
  | nil => rw [combine_nil, combine_nil]
  | cons c cs ih =>
    cases vs with
    | nil => cases short
    | cons v vs =>
      rw [List.cons_append, combine_cons, combine_cons, ih (Nat.le_of_succ_le_succ short)]

theorem combine_zeros (us : List (Vector RealScalar n)) (vs : List (Fin n → ℝ)) :
    combine (us.map fun _ ↦ 0) vs = 0 := by
  induction us generalizing vs with
  | nil => rw [List.map_nil, combine_nil]
  | cons u us ih =>
    cases vs with
    | nil => rfl
    | cons v vs => rw [List.map_cons, combine_cons, ih, RealScalar.value_zero, zero_smul, zero_add]

theorem combine_eq_sum (cs : List RealScalar) (vs : List (Fin n → ℝ)) :
    combine cs vs = ∑ i ∈ Finset.range vs.length, (cs.getD i 0).value • vs.getD i 0 := by
  induction vs generalizing cs with
  | nil => cases cs <;> rfl
  | cons v vs ih =>
    cases cs with
    | nil => simp
    | cons c cs =>
      rw [combine_cons, ih, List.length_cons, Finset.sum_range_succ']
      simp [add_comm]

theorem mulVec_combine (A : Matrix (Fin n) (Fin n) ℝ) (cs : List RealScalar)
    (vs : List (Fin n → ℝ)) : A *ᵥ combine cs vs = combine cs (vs.map (A *ᵥ ·)) := by
  induction vs generalizing cs with
  | nil => cases cs <;> exact mulVec_zero A
  | cons v vs ih =>
    cases cs with
    | nil => rw [combine_nil, combine_nil, mulVec_zero]
    | cons c cs => rw [List.map_cons, combine_cons, combine_cons, mulVec_add, mulVec_smul, ih]

/-! ## Orthogonalisation -/

/-- Orthonormal vectors. -/
structure Orthonormals (vs : List (Fin n → ℝ)) : Prop where
  unit : ∀ v ∈ vs, v ⬝ᵥ v = 1
  orthogonal : vs.Pairwise fun u v ↦ u ⬝ᵥ v = 0

theorem Orthonormals.tail {v : Fin n → ℝ} {vs : List (Fin n → ℝ)} (h : Orthonormals (v :: vs)) :
    Orthonormals vs :=
  ⟨fun u mem ↦ h.unit u (List.mem_cons_of_mem v mem), h.orthogonal.of_cons⟩

theorem Orthonormals.concat {vs : List (Fin n → ℝ)} {u : Fin n → ℝ} (h : Orthonormals vs)
    (unit : u ⬝ᵥ u = 1) (orthogonal : ∀ v ∈ vs, v ⬝ᵥ u = 0) : Orthonormals (vs ++ [u]) where
  unit v mem := by
    rcases List.mem_append.1 mem with old | new
    · exact h.unit v old
    · rw [List.mem_singleton.1 new, unit]
  orthogonal := by
    refine List.pairwise_append.2 ⟨h.orthogonal, List.pairwise_singleton _ _, fun v old w new ↦ ?_⟩
    rw [List.mem_singleton.1 new, orthogonal v old]

namespace Gmres

theorem orthogonalize_cons (v : Vector RealScalar n) (vs : List (Vector RealScalar n))
    (c : RealScalar) (cs : List RealScalar) (w : Vector RealScalar n) :
    orthogonalize (v :: vs) (c :: cs) w =
      ((c + dot w v) :: (orthogonalize vs cs (subScaled w (dot w v) v)).1,
        (orthogonalize vs cs (subScaled w (dot w v) v)).2) := rfl

variable {vs : List (Vector RealScalar n)} {cs : List RealScalar}

/-- A pass moves parts of `w` into the coefficients. -/
theorem orthogonalize_combine (same : cs.length = vs.length) (w : Vector RealScalar n) :
    (orthogonalize vs cs w).1.length = vs.length ∧
      combine (orthogonalize vs cs w).1 (vs.map values) + values (orthogonalize vs cs w).2 =
        combine cs (vs.map values) + values w := by
  induction vs generalizing cs w with
  | nil =>
    obtain rfl := List.length_eq_zero_iff.1 same
    exact ⟨rfl, rfl⟩
  | cons v vs ih =>
    cases cs with
    | nil => cases same
    | cons c cs =>
      obtain ⟨length, sum⟩ := ih (Nat.succ.inj same) (subScaled w (dot w v) v)
      rw [orthogonalize_cons, List.map_cons, combine_cons, combine_cons, List.length_cons,
        List.length_cons, length, add_assoc, sum, values_subScaled, RealScalar.value_add, add_smul]
      exact ⟨rfl, by abel⟩

/-- What is orthogonal to the basis sees no difference. -/
theorem dotProduct_orthogonalize {u : Fin n → ℝ} (orthogonal : ∀ v ∈ vs.map values, u ⬝ᵥ v = 0)
    (cs : List RealScalar) (w : Vector RealScalar n) :
    u ⬝ᵥ values (orthogonalize vs cs w).2 = u ⬝ᵥ values w := by
  induction vs generalizing cs w with
  | nil => rfl
  | cons v vs ih =>
    rw [List.map_cons, List.forall_mem_cons] at orthogonal
    cases cs with
    | nil => rfl
    | cons c cs =>
      rw [orthogonalize_cons, ih orthogonal.2, values_subScaled, dotProduct_sub, dotProduct_smul,
        orthogonal.1, smul_zero, sub_zero]

/-- What is left is orthogonal to the basis. -/
theorem orthogonal_orthogonalize (basis : Orthonormals (vs.map values))
    (same : cs.length = vs.length) (w : Vector RealScalar n) :
    ∀ v ∈ vs.map values, v ⬝ᵥ values (orthogonalize vs cs w).2 = 0 := by
  induction vs generalizing cs w with
  | nil => exact fun v mem ↦ absurd mem List.not_mem_nil
  | cons v vs ih =>
    cases cs with
    | nil => cases same
    | cons c cs =>
      rw [List.map_cons] at basis ⊢
      have across := (List.pairwise_cons.1 basis.orthogonal).1
      rw [List.forall_mem_cons, orthogonalize_cons, dotProduct_orthogonalize across,
        values_subScaled, dotProduct_sub, dotProduct_smul, basis.unit _ List.mem_cons_self, value_dot,
        dotProduct_comm, smul_eq_mul, mul_one, sub_self]
      exact ⟨rfl, ih basis.tail (Nat.succ.inj same) _⟩

end Gmres

/-! ## Rotations -/

/-- A cosine and the sine that belongs to it. -/
structure IsRotation (t : RealScalar × RealScalar) : Prop where
  circle : t.1.value ^ 2 + t.2.value ^ 2 = 1

/-- A basis that begins with `p` and goes on with the listed vectors, rotated in turn in the planes
of neighbours, each rotation moving the last vector on. -/
def frame : List (RealScalar × RealScalar) → (Fin n → ℝ) → List (Fin n → ℝ) →
    List (Fin n → ℝ) × (Fin n → ℝ)
  | t :: rotations, p, v :: vs =>
    let (finished, last) := frame rotations (-t.2.value • p + t.1.value • v) vs
    ((t.1.value • p + t.2.value • v) :: finished, last)
  | _, p, _ => ([], p)

theorem frame_cons (t : RealScalar × RealScalar) (rotations : List (RealScalar × RealScalar))
    (p v : Fin n → ℝ) (vs : List (Fin n → ℝ)) :
    frame (t :: rotations) p (v :: vs) =
      ((t.1.value • p + t.2.value • v) :: (frame rotations (-t.2.value • p + t.1.value • v) vs).1,
        (frame rotations (-t.2.value • p + t.1.value • v) vs).2) := rfl

variable {rotations : List (RealScalar × RealScalar)} {vs : List (Fin n → ℝ)}

theorem length_frame (same : rotations.length = vs.length) (p : Fin n → ℝ) :
    (frame rotations p vs).1.length = vs.length := by
  induction rotations generalizing p vs with
  | nil => exact same
  | cons t rotations ih =>
    cases vs with
    | nil => cases same
    | cons v vs => rw [frame_cons, List.length_cons, List.length_cons, ih (Nat.succ.inj same)]

/-- One more rotation. -/
theorem frame_concat (same : rotations.length = vs.length) (p : Fin n → ℝ)
    (t : RealScalar × RealScalar) (u : Fin n → ℝ) :
    frame (rotations ++ [t]) p (vs ++ [u]) =
      ((frame rotations p vs).1 ++ [t.1.value • (frame rotations p vs).2 + t.2.value • u],
        -t.2.value • (frame rotations p vs).2 + t.1.value • u) := by
  induction rotations generalizing p vs with
  | nil =>
    obtain rfl := List.length_eq_zero_iff.1 same.symm
    rfl
  | cons s rotations ih =>
    cases vs with
    | nil => cases same
    | cons v vs =>
      rw [List.cons_append, List.cons_append, frame_cons, frame_cons, ih (Nat.succ.inj same),
        List.cons_append]

theorem dotProduct_frame {u p : Fin n → ℝ} (first : u ⬝ᵥ p = 0) (others : ∀ v ∈ vs, u ⬝ᵥ v = 0)
    (rotations : List (RealScalar × RealScalar)) : u ⬝ᵥ (frame rotations p vs).2 = 0 := by
  induction rotations generalizing p vs with
  | nil => exact first
  | cons t rotations ih =>
    cases vs with
    | nil => exact first
    | cons v vs =>
      rw [List.forall_mem_cons] at others
      refine ih ?_ others.2
      rw [dotProduct_add, dotProduct_smul, dotProduct_smul, first, others.1, smul_zero, smul_zero,
        add_zero]

/-- A rotation keeps lengths. -/
theorem IsRotation.dotProduct_self {t : RealScalar × RealScalar} (rotation : IsRotation t)
    {p v : Fin n → ℝ} (unit : p ⬝ᵥ p = 1) (unit' : v ⬝ᵥ v = 1) (orthogonal : p ⬝ᵥ v = 0) :
    (-t.2.value • p + t.1.value • v) ⬝ᵥ (-t.2.value • p + t.1.value • v) = 1 := by
  have reversed : v ⬝ᵥ p = 0 := (dotProduct_comm v p).trans orthogonal
  simp only [add_dotProduct, dotProduct_add, smul_dotProduct, dotProduct_smul, smul_eq_mul, unit,
    unit', orthogonal, reversed]
  linear_combination rotation.circle

/-- The last vector is a unit vector. -/
theorem frame_unit (rotates : ∀ t ∈ rotations, IsRotation t) {p : Fin n → ℝ}
    (basis : Orthonormals (p :: vs)) :
    (frame rotations p vs).2 ⬝ᵥ (frame rotations p vs).2 = 1 := by
  induction rotations generalizing p vs with
  | nil => exact basis.unit p List.mem_cons_self
  | cons t rotations ih =>
    cases vs with
    | nil => exact basis.unit p List.mem_cons_self
    | cons v vs =>
      rw [List.forall_mem_cons] at rotates
      have across := (List.pairwise_cons.1 basis.orthogonal).1
      have across' := (List.pairwise_cons.1 basis.tail.orthogonal).1
      refine ih rotates.2 ⟨List.forall_mem_cons.2 ⟨?_, basis.tail.tail.unit⟩,
        List.pairwise_cons.2 ⟨fun u mem ↦ ?_, basis.tail.tail.orthogonal⟩⟩
      · exact rotates.1.dotProduct_self (basis.unit p List.mem_cons_self)
          (basis.tail.unit v List.mem_cons_self) (across v List.mem_cons_self)
      · rw [add_dotProduct, smul_dotProduct, smul_dotProduct, across' u mem,
          across u (List.mem_cons_of_mem v mem), smul_zero, smul_zero, add_zero]

/-- Two coefficients along two vectors are the rotated ones along the rotated ones. -/
theorem IsRotation.smul_add_smul {t : RealScalar × RealScalar} (rotation : IsRotation t) (a b : ℝ)
    (p v : Fin n → ℝ) :
    (t.1.value * a + t.2.value * b) • (t.1.value • p + t.2.value • v) +
        (-t.2.value * a + t.1.value * b) • (-t.2.value • p + t.1.value • v) = a • p + b • v := by
  funext i
  simp only [Pi.add_apply, Pi.smul_apply, smul_eq_mul]
  linear_combination (a * p i + b * v i) * rotation.circle

theorem IsRotation.abs_sine_le {t : RealScalar × RealScalar} (rotation : IsRotation t) :
    |t.2.value| ≤ 1 := by
  rw [← sq_le_one_iff_abs_le_one]
  linarith [sq_nonneg t.1.value, rotation.circle]

/-- A rotated column combines the rotated basis as the column does the basis. -/
theorem rotateColumn_frame (rotates : ∀ t ∈ rotations, IsRotation t) {column : List RealScalar}
    (same : rotations.length = vs.length) (same' : column.length = vs.length) (a : RealScalar)
    (p : Fin n → ℝ) :
    (Gmres.rotateColumn rotations a column).1.length = vs.length ∧
      combine (Gmres.rotateColumn rotations a column).1 (frame rotations p vs).1 +
          (Gmres.rotateColumn rotations a column).2.value • (frame rotations p vs).2 =
        a.value • p + combine column vs := by
  induction rotations generalizing a p column vs with
  | nil =>
    obtain rfl := List.length_eq_zero_iff.1 same.symm
    obtain rfl := List.length_eq_zero_iff.1 same'
    exact ⟨rfl, by simp [frame, Gmres.rotateColumn]⟩
  | cons t rotations ih =>
    rw [List.forall_mem_cons] at rotates
    cases vs with
    | nil => cases same
    | cons v vs =>
      cases column with
      | nil => cases same'
      | cons b column =>
        obtain ⟨c, s⟩ := t
        obtain ⟨length, sum⟩ := ih rotates.2 (Nat.succ.inj same) (Nat.succ.inj same')
          (-s * a + c * b) (-s.value • p + c.value • v)
        have unfolded : Gmres.rotateColumn ((c, s) :: rotations) a (b :: column) =
            ((c * a + s * b) :: (Gmres.rotateColumn rotations (-s * a + c * b) column).1,
              (Gmres.rotateColumn rotations (-s * a + c * b) column).2) := rfl
        rw [unfolded, frame_cons, combine_cons, combine_cons, List.length_cons, List.length_cons,
          length, add_assoc, sum, ← add_assoc, ← add_assoc]
        exact ⟨rfl, congrArg (· + _) (rotates.1.smul_add_smul a.value b.value p v)⟩

namespace Gmres

theorem threshold_pos : 0 < (threshold RealScalar).value := by
  change (0 : ℝ) < ((1e-14 : ℚ) : ℝ)
  norm_num

theorem threshold_lt_one : (threshold RealScalar).value < 1 := by
  change ((1e-14 : ℚ) : ℝ) < 1
  norm_num

/-- A rotation whose radius is not taken for zero. -/
theorem rotation_of_radius {a b : RealScalar}
    (large : threshold RealScalar < Scalar.hypotenuse a b) :
    IsRotation (rotation a b) ∧
      (rotation a b).1.value * a.value + (rotation a b).2.value * b.value =
        (Scalar.hypotenuse a b).value ∧
      -(rotation a b).2.value * a.value + (rotation a b).1.value * b.value = 0 ∧
      (b.value = 0 → (rotation a b).2.value = 0) := by
  have positive : 0 < (Scalar.hypotenuse a b).value := threshold_pos.trans large
  have square : (Scalar.hypotenuse a b).value ^ 2 = a.value ^ 2 + b.value ^ 2 := by
    change √(a.value * a.value + b.value * b.value) ^ 2 = _
    rw [Real.sq_sqrt (add_nonneg (mul_self_nonneg _) (mul_self_nonneg _)), pow_two, pow_two]
  have kept : rotation a b = (a / Scalar.hypotenuse a b, b / Scalar.hypotenuse a b) :=
    if_neg (RealScalar.lt_iff.not.2 (RealScalar.lt_iff.1 large).not_gt)
  rw [kept]
  refine ⟨⟨?_⟩, ?_, ?_, fun zero ↦ ?_⟩ <;> simp only [RealScalar.value_div]
  · field_simp
    exact square.symm
  · field_simp
    exact square.symm
  · ring
  · rw [zero, zero_div]

end Gmres

/-! ## Back substitution -/

namespace Gmres

theorem foldl_subtract (g : Nat → RealScalar) (ys : List RealScalar) (i : Nat) (t : RealScalar) :
    ((ys.zipIdx i).foldl (fun t y ↦ t - g y.2 * y.1) t).value =
      t.value - ∑ j ∈ Finset.range ys.length, (g (i + j)).value * (ys.getD j 0).value := by
  induction ys generalizing i t with
  | nil => simp
  | cons y ys ih =>
    rw [List.zipIdx_cons, List.foldl_cons, ih, List.length_cons, Finset.sum_range_succ']
    simp only [RealScalar.value_sub, RealScalar.value_mul, List.getD_cons_zero, List.getD_cons_succ,
      add_zero, sub_sub]
    congr 1
    rw [add_comm]
    congr 1
    refine Finset.sum_congr rfl fun j _ ↦ ?_
    rw [add_assoc, add_comm 1 j]

/-- The coefficients solve the rows from which they are calculated. -/
theorem backSubstitute_solves {h : Nat → Nat → RealScalar} (rhs : Nat → RealScalar) {m : Nat}
    (triangular : ∀ i j, j < i → h i j = 0) (pivots : ∀ i < m, threshold RealScalar < h i i) {k : Nat}
    (within : k ≤ m) :
    (backSubstitute h rhs m k).length = k ∧ ∀ i, m - k ≤ i → i < m →
      ∑ j ∈ Finset.range k, (h i (m - k + j)).value * ((backSubstitute h rhs m k).getD j 0).value =
        (rhs i).value := by
  induction k with
  | zero => exact ⟨rfl, fun i low high ↦ absurd (lt_of_lt_of_le high low) (lt_irrefl _)⟩
  | succ k ih =>
    obtain ⟨length, rows⟩ := ih (Nat.le_of_succ_le within)
    have pivot : threshold RealScalar < h (m - (k + 1)) (m - (k + 1)) := pivots _ (by omega)
    have positive : 0 < (h (m - (k + 1)) (m - (k + 1))).value := threshold_pos.trans pivot
    have large : threshold RealScalar < Scalar.abs (h (m - (k + 1)) (m - (k + 1))) :=
      RealScalar.lt_iff.2 (lt_of_lt_of_le pivot (le_abs_self _))
    rw [backSubstitute, if_pos large]
    refine ⟨by rw [List.length_cons, length], fun i low high ↦ ?_⟩
    rw [Finset.sum_range_succ']
    simp only [List.getD_cons_zero, List.getD_cons_succ, add_zero, RealScalar.value_div]
    have shift : ∀ j, m - (k + 1) + (j + 1) = m - k + j := fun j ↦ by omega
    simp only [shift, Nat.add_zero]
    rcases Nat.eq_or_lt_of_le low with rfl | lower
    · rw [foldl_subtract (h (m - (k + 1))), length, mul_div_cancel₀ _ positive.ne', add_sub_cancel]
    · rw [triangular i _ lower, RealScalar.value_zero, zero_mul, add_zero]
      exact rows i (by omega) high

end Gmres

/-- The columns of a triangle, the `j`-th with at most `j + 1` entries, none of whose pivots is taken
for zero. -/
structure Triangle (columns : List (List RealScalar)) : Prop where
  shape : ∀ j, (columns.getD j []).length ≤ j + 1
  pivots : ∀ j < columns.length, Gmres.threshold RealScalar < (columns.getD j []).getD j 0

namespace Triangle

variable {columns : List (List RealScalar)}

theorem nil : Triangle [] :=
  ⟨fun _ ↦ Nat.zero_le _, fun _ within ↦ absurd within (Nat.not_lt_zero _)⟩

theorem length_le (triangle : Triangle columns) :
    ∀ column ∈ columns, column.length ≤ columns.length := by
  intro column mem
  obtain ⟨j, within, rfl⟩ := List.getElem_of_mem mem
  have shape := triangle.shape j
  rw [List.getD_eq_getElem _ _ within] at shape
  exact shape.trans within

/-- One more column. -/
theorem concat (triangle : Triangle columns) {column : List RealScalar} {d : RealScalar}
    (length : column.length = columns.length) (large : Gmres.threshold RealScalar < d) :
    Triangle (columns ++ [column ++ [d]]) := by
  have last : (columns ++ [column ++ [d]]).getD columns.length [] = column ++ [d] := by
    rw [List.getD_append_right _ _ _ _ le_rfl, Nat.sub_self, List.getD_cons_zero]
  have size : (columns ++ [column ++ [d]]).length = columns.length + 1 := by
    rw [List.length_append, List.length_singleton]
  refine ⟨fun j ↦ ?_, fun j within ↦ ?_⟩
  · rcases Nat.lt_trichotomy j columns.length with left | rfl | right
    · rw [List.getD_append _ _ _ _ left]
      exact triangle.shape j
    · rw [last, List.length_append, length, List.length_singleton]
    · rw [List.getD_eq_default _ _ (size.le.trans right)]
      exact Nat.zero_le _
  · rw [size] at within
    rcases Nat.lt_or_eq_of_le (Nat.le_of_lt_succ within) with left | rfl
    · rw [List.getD_append _ _ _ _ left]
      exact triangle.pivots j left
    · rw [last, ← length, List.getD_append_right _ _ _ _ le_rfl, Nat.sub_self, List.getD_cons_zero]
      exact large

/-- Back substitution gives the coefficients with which the columns combine to the right-hand
side. -/
theorem combine_backSubstitute (triangle : Triangle columns) (rhs : List RealScalar)
    {qs : List (Fin n → ℝ)} (width : qs.length = columns.length) :
    combine (Gmres.backSubstitute (fun i j ↦ (columns.getD j []).getD i 0) (fun i ↦ rhs.getD i 0)
        columns.length columns.length) (columns.map (combine · qs)) = combine rhs qs := by
  have short : ∀ i j, j < i → (columns.getD j []).getD i 0 = 0 := fun i j left ↦
    List.getD_eq_default _ _ ((triangle.shape j).trans left)
  obtain ⟨-, rows⟩ := Gmres.backSubstitute_solves (fun i ↦ rhs.getD i 0) short triangle.pivots
    (Nat.le_refl _)
  have column : ∀ j, (columns.map (combine · qs)).getD j 0 =
      ∑ i ∈ Finset.range qs.length, ((columns.getD j []).getD i 0).value • qs.getD i 0 := by
    intro j
    rw [← combine_eq_sum, ← combine_nil qs, List.getD_map]
  rw [combine_eq_sum, combine_eq_sum, List.length_map]
  simp only [column, Finset.smul_sum, smul_smul]
  rw [Finset.sum_comm]
  refine Finset.sum_congr rfl fun i row ↦ ?_
  rw [Finset.mem_range, width] at row
  rw [← Finset.sum_smul, ← rows i (by omega) row]
  refine congrArg (· • _) (Finset.sum_congr rfl fun j _ ↦ ?_)
  rw [Nat.sub_self, Nat.zero_add, mul_comm]

end Triangle

end OperatingPoint
