import OperatingPoint.Proofs.GmresRun
import OperatingPoint.Proofs.RotatedBases

/-!
# GMRES monitors the true residual

With real numbers, the last rotated entry of the right-hand side is the norm of the residual after
the cycle, up to its sign, as long as no rotation has a radius that is taken for zero.

The invariant of a cycle, `Cycle.Balanced`, is over a rotated basis: the vectors `qs`, over which the
triangle and its right-hand side stand, and one more vector `p`, along which the rest of the residual
lies.  While the space is not exhausted they are the basis that the cycle keeps, with the rotations
applied to it (`Cycle.Framed`).  An iteration splits the image of its direction into a combination of
the basis and a rest; the rest gives the basis a new vector, `Cycle.fresh`, even where it is so short
that the cycle does not keep it.

Neither what the preconditioner does nor which matrix it was set up on matters, as the directions are
kept and the solution is updated along them.
-/

set_option autoImplicit false

namespace OperatingPoint

open Matrix

namespace Gmres

variable {n : Nat} {A : Mat RealScalar n n} {pc : Option (Preconditioner RealScalar)}
  {r : Vector RealScalar n} {cycle : Cycle RealScalar n} {qs vs : List (Fin n → ℝ)}
  {p v : Fin n → ℝ} {z : Vector RealScalar n}

/-! ## The least-squares problem -/

/-- The triangle of a cycle from the residual `r`, over the vectors `qs`, and what is below it,
along `p`. -/
structure Cycle.Balanced (A : Mat RealScalar n n) (r : Vector RealScalar n)
    (cycle : Cycle RealScalar n) (qs : List (Fin n → ℝ)) (p : Fin n → ℝ) : Prop where
  width : qs.length = cycle.columns.length
  height : cycle.rhs.length = cycle.columns.length
  residual : values r = combine cycle.rhs qs + cycle.estimate.value • p
  images : cycle.directions.map (fun z ↦ A.values *ᵥ values z) =
    cycle.columns.map (combine · qs)
  triangle : Triangle cycle.columns
  measured : cycle.estimate.value ^ 2 * (p ⬝ᵥ p) = cycle.estimate.value ^ 2
  reduced : |cycle.estimate.value| ≤ (norm r).value

theorem Cycle.values_update (cycle : Cycle RealScalar n) (x : Vector RealScalar n) :
    values (cycle.update x) =
      values x + combine cycle.coefficients (cycle.directions.map values) := by
  have along : ∀ (cs : List RealScalar) (zs : List (Vector RealScalar n)) (x : Vector RealScalar n),
      values ((cs.zip zs).foldl (fun x part ↦ addScaled x part.1 part.2) x) =
        values x + combine cs (zs.map values) := by
    intro cs zs
    induction cs generalizing zs with
    | nil => intro x; simp
    | cons c cs ih =>
      intro x
      cases zs with
      | nil => simp [combine]
      | cons z zs =>
        rw [List.zip_cons_cons, List.foldl_cons, ih, List.map_cons, combine_cons, values_addScaled,
          add_assoc]
  exact along _ _ x

namespace Cycle.Balanced

variable {b x : Vector RealScalar n}

/-- After the update, what was below the triangle is left of the residual. -/
theorem residual_update (balanced : cycle.Balanced A (Gmres.residual A b x) qs p) :
    values (Gmres.residual A b (cycle.update x)) = cycle.estimate.value • p := by
  have before := balanced.residual
  rw [Gmres.residual, values_difference, values_mulVec] at before ⊢
  rw [Cycle.values_update, mulVec_add, mulVec_combine, List.map_map,
    show (A.values *ᵥ ·) ∘ values = fun z ↦ A.values *ᵥ values z from rfl, balanced.images,
    Cycle.coefficients, balanced.triangle.combine_backSubstitute _ balanced.width, ← sub_sub, before,
    add_sub_cancel_left]

/-- The norm of the residual after the update is the estimate. -/
theorem norm_update (balanced : cycle.Balanced A (Gmres.residual A b x) qs p) :
    norm (Gmres.residual A b (cycle.update x)) = Scalar.abs cycle.estimate := by
  apply RealScalar.ext
  rw [value_norm, balanced.residual_update, smul_dotProduct, dotProduct_smul, smul_eq_mul,
    smul_eq_mul, ← mul_assoc, ← pow_two, balanced.measured, Real.sqrt_sq_eq_abs, RealScalar.value_abs]

end Cycle.Balanced

/-! ## One iteration -/

/-- A cycle whose basis is orthonormal and as long as it gets. -/
structure Cycle.Framed (cycle : Cycle RealScalar n) (v : Fin n → ℝ) (vs : List (Fin n → ℝ)) :
    Prop where
  basis : cycle.basis.map values = v :: vs
  orthonormal : Orthonormals (v :: vs)
  rotates : ∀ t ∈ cycle.rotations, IsRotation t
  as_many : cycle.rotations.length = vs.length

/-- The direction of what is left of the image of `z`. -/
noncomputable def Cycle.fresh (cycle : Cycle RealScalar n) (A : Mat RealScalar n n)
    (z : Vector RealScalar n) : Fin n → ℝ :=
  direction (cycle.split A z).2

theorem Cycle.fresh_unit (high : (cycle.height A z).value ≠ 0) :
    cycle.fresh A z ⬝ᵥ cycle.fresh A z = 1 :=
  direction_unit high

namespace Cycle.Framed

variable (framed : cycle.Framed v vs)

include framed

/-- The image of a direction is split into a combination of the basis and a rest orthogonal to it. -/
theorem split (A : Mat RealScalar n n) (z : Vector RealScalar n) :
    (cycle.split A z).1.length = vs.length + 1 ∧
      combine (cycle.split A z).1 (v :: vs) + values (cycle.split A z).2 =
        A.values *ᵥ values z ∧
      ∀ u ∈ v :: vs, u ⬝ᵥ values (cycle.split A z).2 = 0 := by
  have zeroed : (cycle.basis.map fun _ ↦ (0 : RealScalar)).length = cycle.basis.length :=
    List.length_map _
  obtain ⟨length, sum⟩ := orthogonalize_combine zeroed (A.mulVec z)
  obtain ⟨length', sum'⟩ := orthogonalize_combine length
    (orthogonalize cycle.basis (cycle.basis.map fun _ ↦ 0) (A.mulVec z)).2
  have orthogonal := orthogonal_orthogonalize (framed.basis ▸ framed.orthonormal) length
    (orthogonalize cycle.basis (cycle.basis.map fun _ ↦ 0) (A.mulVec z)).2
  rw [sum, combine_zeros, zero_add, values_mulVec] at sum'
  rw [framed.basis] at sum' orthogonal
  have long := congrArg List.length framed.basis
  rw [List.length_map, List.length_cons] at long
  exact ⟨length'.trans long, sum', orthogonal⟩

/-- The rotated column combines the rotated basis to the image, up to the rest. -/
theorem rotated (A : Mat RealScalar n n) (z : Vector RealScalar n) :
    (cycle.rotated A z).1.length = vs.length ∧
      A.values *ᵥ values z = combine (cycle.rotated A z).1 (frame cycle.rotations v vs).1 +
        ((cycle.rotated A z).2.value • (frame cycle.rotations v vs).2 +
          (cycle.height A z).value • cycle.fresh A z) := by
  obtain ⟨length, sum, -⟩ := framed.split A z
  rw [Cycle.rotated, Cycle.height, Cycle.fresh, norm_smul_direction, ← sum]
  cases column : (cycle.split A z).1 with
  | nil =>
    rw [column] at length
    cases length
  | cons first others =>
    rw [column] at length
    obtain ⟨length', sum'⟩ := rotateColumn_frame framed.rotates framed.as_many
      (Nat.succ.inj length) first v
    exact ⟨length', by rw [List.headD_cons, List.tail_cons, ← add_assoc, sum', combine_cons]⟩

/-- The fresh vector is orthogonal to the basis. -/
theorem fresh_orthogonal (A : Mat RealScalar n n) (z : Vector RealScalar n) :
    ∀ u ∈ v :: vs, u ⬝ᵥ cycle.fresh A z = 0 := by
  intro u mem
  rw [Cycle.fresh, direction, dotProduct_smul, (framed.split A z).2.2 u mem, smul_zero]

end Cycle.Framed

namespace Cycle

/-- The basis stays orthonormal as long as the space is not exhausted. -/
theorem Framed.along (framed : cycle.Framed v vs)
    (large : threshold RealScalar < cycle.radius A z) (on : cycle.exhausts A z = false) :
    (cycle.along A z).Framed v (vs ++ [cycle.fresh A z]) where
  basis := by
    have extended : (cycle.along A z).basis = cycle.basis ++
        [Vector.ofFn fun i ↦ (cycle.split A z).2.get i * (1 / cycle.height A z)] :=
      if_neg (by rw [on]; exact Bool.false_ne_true)
    rw [extended, List.map_append, framed.basis, List.map_singleton, values_ofFn, List.cons_append]
    congr 3
    funext i
    exact mul_comm _ _
  orthonormal := by
    have long : ¬ cycle.height A z < threshold RealScalar := of_decide_eq_false on
    have high : (cycle.height A z).value ≠ 0 :=
      (threshold_pos.trans_le (not_lt.1 (RealScalar.lt_iff.not.1 long))).ne'
    exact framed.orthonormal.concat (fresh_unit high) (framed.fresh_orthogonal A z)
  rotates t mem := by
    rcases List.mem_append.1 mem with old | new
    · exact framed.rotates t old
    · rw [List.mem_singleton.1 new]
      exact (rotation_of_radius large).1
  as_many := by
    change (cycle.rotations ++ [_]).length = _
    rw [List.length_append, List.length_append, framed.as_many]
    rfl

/-- The rotation of an iteration whose radius is not taken for zero. -/
theorem turn_of_radius (large : threshold RealScalar < cycle.radius A z) :
    IsRotation (cycle.turn A z) ∧
      (cycle.turn A z).1.value * (cycle.rotated A z).2.value +
          (cycle.turn A z).2.value * (cycle.height A z).value = (cycle.radius A z).value ∧
      -(cycle.turn A z).2.value * (cycle.rotated A z).2.value +
          (cycle.turn A z).1.value * (cycle.height A z).value = 0 ∧
      ((cycle.height A z).value = 0 → (cycle.turn A z).2.value = 0) :=
  rotation_of_radius large

/-- An iteration keeps the least-squares problem balanced. -/
theorem Balanced.along
    (balanced : cycle.Balanced A r (frame cycle.rotations v vs).1 (frame cycle.rotations v vs).2)
    (framed : cycle.Framed v vs) (large : threshold RealScalar < cycle.radius A z) :
    (cycle.along A z).Balanced A r
      (frame (cycle.along A z).rotations v (vs ++ [cycle.fresh A z])).1
      (frame (cycle.along A z).rotations v (vs ++ [cycle.fresh A z])).2 := by
  obtain ⟨rotation, radius, level, flat⟩ := turn_of_radius large
  obtain ⟨length, image⟩ := framed.rotated A z
  have width := length_frame framed.as_many v
  have unit := frame_unit framed.rotates framed.orthonormal
  have across : (frame cycle.rotations v vs).2 ⬝ᵥ cycle.fresh A z = 0 := by
    have orthogonal := framed.fresh_orthogonal A z
    simp only [List.forall_mem_cons, dotProduct_comm _ (cycle.fresh A z)] at orthogonal
    rw [dotProduct_comm]
    exact dotProduct_frame orthogonal.1 orthogonal.2 _
  rw [← width] at length
  have rotations : (cycle.along A z).rotations = cycle.rotations ++ [cycle.turn A z] := rfl
  rw [rotations, frame_concat framed.as_many]
  generalize (frame cycle.rotations v vs).1 = qs at *
  generalize (frame cycle.rotations v vs).2 = p at *
  have estimate : (cycle.along A z).estimate.value =
      -(cycle.turn A z).2.value * cycle.estimate.value + (cycle.turn A z).1.value * 0 := rfl
  constructor
  case width =>
    change (qs ++ [_]).length = (cycle.columns ++ [_]).length
    rw [List.length_append, List.length_append, balanced.width]
    rfl
  case height =>
    change (cycle.rhs ++ [_]).length = (cycle.columns ++ [_]).length
    rw [List.length_append, List.length_append, balanced.height]
    rfl
  case residual =>
    have turned := rotation.smul_add_smul cycle.estimate.value 0 p (cycle.fresh A z)
    rw [zero_smul, add_zero] at turned
    change values r = combine (cycle.rhs ++ [_]) (qs ++ [_]) + _
    rw [combine_concat (balanced.height.trans balanced.width.symm), balanced.residual, ← turned,
      add_assoc]
    rfl
  case images =>
    have turned := rotation.smul_add_smul (cycle.rotated A z).2.value (cycle.height A z).value p
      (cycle.fresh A z)
    rw [level, zero_smul, add_zero] at turned
    change (cycle.directions ++ [z]).map _ = (cycle.columns ++ [_]).map _
    rw [List.map_append, List.map_append, balanced.images, List.map_singleton, List.map_singleton,
      combine_concat length, image, ← turned]
    refine congrArg (· ++ _) (List.map_congr_left fun column mem ↦ ?_)
    exact (combine_append_right (balanced.width ▸ balanced.triangle.length_le column mem) _).symm
  case triangle =>
    exact balanced.triangle.concat (length.trans balanced.width)
      (RealScalar.lt_iff.2 (lt_of_lt_of_eq large radius.symm))
  case measured =>
    by_cases high : (cycle.height A z).value = 0
    · rw [estimate, flat high]
      simp
    · dsimp only
      rw [rotation.dotProduct_self unit (fresh_unit high) across, mul_one]
  case reduced =>
    refine le_trans ?_ balanced.reduced
    rw [estimate, mul_zero, add_zero, abs_mul, abs_neg]
    exact mul_le_of_le_one_left (abs_nonneg _) rotation.abs_sine_le

/-! ## A cycle from its start -/

theorem basis_start (r : Vector RealScalar n) : (start r).basis.map values = [direction r] := by
  change [values (Vector.ofFn fun i ↦ r.get i / norm r)] = _
  rw [values_ofFn]
  congr 1
  funext i
  exact (div_eq_mul_one_div _ _).trans (mul_comm _ _)

theorem values_newest_start (r : Vector RealScalar n) : values (start r).newest = direction r :=
  List.head_eq_of_cons_eq (basis_start r)

theorem split_start (r : Vector RealScalar n) (A : Mat RealScalar n n) (z : Vector RealScalar n) :
    (start r).split A z =
      let v := (start r).newest
      let w := subScaled (A.mulVec z) (dot (A.mulVec z) v) v
      ([0 + dot (A.mulVec z) v + dot w v], subScaled w (dot w v) v) := rfl

/-- The first coefficient is the component of the image along the residual. -/
theorem value_rotated_start (r : Vector RealScalar n) (A : Mat RealScalar n n)
    (z : Vector RealScalar n) :
    ((start r).rotated A z).2.value = direction r ⬝ᵥ (A.values *ᵥ values z) := by
  have passes : ((start r).rotated A z).2.value = 0 + (dot (A.mulVec z) (start r).newest).value +
      (dot (subScaled (A.mulVec z) (dot (A.mulVec z) (start r).newest) (start r).newest)
        (start r).newest).value := rfl
  rw [passes, value_dot, value_dot, values_subScaled, value_dot, values_newest_start, values_mulVec,
    sub_dotProduct, smul_dotProduct, smul_eq_mul, dotProduct_comm _ (direction r)]
  -- The second pass finds nothing more, whether or not there is a residual.
  by_cases zero : (norm r).value = 0
  · simp [direction, values_of_norm zero]
  · rw [direction_unit zero]
    ring

theorem value_radius (cycle : Cycle RealScalar n) (A : Mat RealScalar n n)
    (z : Vector RealScalar n) :
    (cycle.radius A z).value =
      √((cycle.rotated A z).2.value * (cycle.rotated A z).2.value +
        (cycle.height A z).value * (cycle.height A z).value) := rfl

theorem framed_start (nonzero : (norm r).value ≠ 0) : (start r).Framed (direction r) [] where
  basis := basis_start r
  orthonormal := ⟨fun u mem ↦ by rw [List.mem_singleton.1 mem, direction_unit nonzero],
    List.pairwise_singleton _ _⟩
  rotates _ mem := absurd mem List.not_mem_nil
  as_many := rfl

theorem balanced_start (A : Mat RealScalar n n) (r : Vector RealScalar n) :
    (start r).Balanced A r [] (direction r) where
  width := rfl
  height := rfl
  residual := by
    rw [← norm_smul_direction r]
    exact (zero_add _).symm
  images := rfl
  triangle := .nil
  measured := by
    change (norm r).value ^ 2 * _ = (norm r).value ^ 2
    by_cases zero : (norm r).value = 0
    · rw [zero]
      ring
    · rw [direction_unit zero, mul_one]
  reduced := by
    change |(norm r).value| ≤ (norm r).value
    rw [abs_of_nonneg]
    rw [value_norm]
    exact Real.sqrt_nonneg _

end Cycle

/-! ## Cycles without a residual

A quotient by zero is zero here, so that a cycle without a residual begins with the vector of zeros.
Its first rotation has the radius zero. -/

theorem zeros_set {a : RealScalar} (zero : a = 0) (i : Fin n) :
    (zeros RealScalar n).set i a i.isLt = zeros RealScalar n := by
  refine ext_get fun j ↦ ?_
  rw [get_set, get_zeros, zero, ite_self]

/-- The terms of a row over zeros. -/
theorem foldl_zeros (factors : Mat RealScalar n n) (i : Fin n) (l : List (Fin n)) :
    l.foldl (fun t j ↦ t - factors i j * (zeros RealScalar n).get j) ((zeros RealScalar n).get i) =
      0 := by
  rw [get_zeros]
  refine List.foldl_fixed' (fun j ↦ ?_) l
  ext
  simp

theorem solveUnitLower_zeros (factors : Mat RealScalar n n) :
    solveUnitLower factors (zeros RealScalar n) = zeros RealScalar n :=
  List.foldl_fixed' (fun i ↦ zeros_set (foldl_zeros factors i _) i) _

theorem solveUpper_zeros (factors : Mat RealScalar n n) :
    solveUpper factors (zeros RealScalar n) = zeros RealScalar n := by
  refine List.foldl_fixed' (fun i ↦ zeros_set ?_ i) _
  rw [foldl_zeros]
  ext
  simp

theorem apply_zeros {pc : Preconditioner RealScalar}
    (applied : pc.apply (zeros RealScalar n) = .ok z) : z = zeros RealScalar n := by
  cases pc with
  | diagonal inverses =>
    rw [Preconditioner.apply] at applied
    split at applied
    · cases applied
      refine ext_get fun i ↦ (Vector.getElem_zipWith i.isLt).trans ?_
      change _ * (zeros RealScalar n).get i = _
      ext
      simp
    · cases applied
  | incomplete factors =>
    rw [Preconditioner.apply] at applied
    split at applied
    · rename_i same
      subst same
      cases applied
      change solveUpper factors (solveUnitLower factors (zeros RealScalar n)) = _
      rw [solveUnitLower_zeros, solveUpper_zeros]
    · cases applied

/-- A preconditioner takes zeros to zeros. -/
theorem precondition_zeros (applied : precondition pc (zeros RealScalar n) = .ok z) :
    z = zeros RealScalar n := by
  cases pc with
  | none => cases applied; rfl
  | some pc => exact apply_zeros applied

theorem radius_start (zero : (norm r).value = 0)
    (applied : precondition pc (Cycle.start r).newest = .ok z) :
    ((Cycle.start r).radius A z).value = 0 := by
  have nothing : direction r = 0 := by rw [direction, values_of_norm zero, smul_zero]
  have flat : values (Cycle.start r).newest = 0 := (Cycle.values_newest_start r).trans nothing
  have newest : (Cycle.start r).newest = zeros RealScalar n :=
    values_injective (flat.trans values_zeros.symm)
  rw [newest] at applied
  have image : values (A.mulVec z) = 0 := by
    rw [precondition_zeros applied, values_mulVec, values_zeros, mulVec_zero]
  have last : ((Cycle.start r).rotated A z).2.value = 0 := by
    rw [Cycle.value_rotated_start, nothing, zero_dotProduct]
  have height : ((Cycle.start r).height A z).value = 0 := by
    rw [Cycle.height, Cycle.split_start]
    simp [image, flat]
  rw [Cycle.value_radius, last, height, mul_zero, add_zero, Real.sqrt_zero]

/-- Where no radius is taken for zero there is a residual, if there was an iteration at all. -/
theorem Cycle.Grows.norm_ne_zero {radii : List RealScalar} {exhausted : Bool}
    (grown : Cycle.Grows A pc r radii cycle exhausted)
    (large : ∀ ρ ∈ radii, threshold RealScalar < ρ) : radii = [] ∨ (norm r).value ≠ 0 := by
  induction grown with
  | start => exact .inl rfl
  | @extend radii cycle z grown preconditioned ih =>
    refine .inr ?_
    rw [List.forall_mem_append] at large
    rcases ih large.1 with rfl | nonzero
    · intro zero
      obtain rfl := grown.of_nil
      have vanishes := radius_start (A := A) zero preconditioned
      have positive := threshold_pos.trans (large.2 _ (List.mem_singleton.2 rfl))
      exact positive.ne' vanishes
    · exact nonzero

/-- The least-squares problem of a cycle is balanced. -/
theorem Cycle.Grows.balanced {radii : List RealScalar} {exhausted : Bool}
    (grown : Cycle.Grows A pc r radii cycle exhausted)
    (large : ∀ ρ ∈ radii, threshold RealScalar < ρ) :
    ∃ vs, cycle.Balanced A r (frame cycle.rotations (direction r) vs).1
        (frame cycle.rotations (direction r) vs).2 ∧
      (exhausted = false → (norm r).value ≠ 0 → cycle.Framed (direction r) vs) := by
  induction grown with
  | start => exact ⟨[], Cycle.balanced_start A r, fun _ nonzero ↦ Cycle.framed_start nonzero⟩
  | @extend radii cycle z grown preconditioned ih =>
    have nonzero := ((grown.extend preconditioned).norm_ne_zero large).resolve_left
      (List.append_ne_nil_of_right_ne_nil _ (List.cons_ne_nil _ _))
    rw [List.forall_mem_append] at large
    have last := large.2 _ (List.mem_singleton.2 rfl)
    obtain ⟨vs, balanced, framed⟩ := ih large.1
    have framed := framed rfl nonzero
    exact ⟨_, balanced.along framed last, fun on _ ↦ framed.along last on⟩

/-! ## Cycle after cycle -/

/-- A cycle that was carried out with no radius that is taken for zero. -/
def Turn.Regular {α : Type} [Scalar α] (turn : Turn α n) : Prop :=
  ∀ ρ ∈ turn.radii, threshold α < ρ

variable {g : Gmres RealScalar} {b x : Vector RealScalar n} {first : RealScalar}

/-- After a cycle the estimate is the norm of the residual, which has not grown. -/
theorem Carries.monitors {turn : Turn RealScalar n} {iteration iteration' : Nat} {ended : Bool}
    (carries : g.Carries A pc b first iteration turn iteration' ended) (regular : turn.Regular) :
    norm (residual A b turn.finish) = Scalar.abs turn.cycle.estimate ∧
      norm (residual A b turn.finish) ≤ norm (residual A b turn.start) := by
  obtain ⟨exhausted, grown⟩ := carries.grown
  obtain ⟨vs, balanced, -⟩ := grown.balanced regular
  have measured := balanced.norm_update
  exact ⟨measured, by rw [Turn.finish, measured]; exact balanced.reduced⟩

/-- The norms of the residuals between the cycles of a loop, the first one first. -/
noncomputable def norms (A : Mat RealScalar n n) (b x : Vector RealScalar n)
    (turns : List (Turn RealScalar n)) : List RealScalar :=
  norm (residual A b x) :: turns.map fun turn ↦ norm (residual A b turn.finish)

theorem Turns.carries {iteration : Nat} {stats : SolveStats RealScalar}
    {turns : List (Turn RealScalar n)}
    {result : Except Stop (Vector RealScalar n × SolveStats RealScalar)}
    (turned : g.Turns A pc b first iteration x stats turns result) :
    ∀ turn ∈ turns, ∃ iteration iteration' ended,
      g.Carries A pc b first iteration turn iteration' ended := by
  induction turned with
  | spent | unheld | broken => exact fun turn mem ↦ absurd mem List.not_mem_nil
  | settled _ _ carries =>
    intro turn mem
    rw [List.mem_singleton.1 mem]
    exact ⟨_, _, _, carries⟩
  | again _ _ carries _ _ ih => exact List.forall_mem_cons.2 ⟨⟨_, _, _, carries⟩, ih⟩

theorem Turns.norms_pairwise {iteration : Nat} {stats : SolveStats RealScalar}
    {turns : List (Turn RealScalar n)}
    {result : Except Stop (Vector RealScalar n × SolveStats RealScalar)}
    (turned : g.Turns A pc b first iteration x stats turns result)
    (regular : ∀ turn ∈ turns, turn.Regular) :
    (norms A b x turns).Pairwise fun p q ↦ q ≤ p := by
  induction turned with
  | spent | unheld | broken => exact List.pairwise_singleton _ _
  | settled _ _ carries =>
    have less := (carries.monitors (regular _ (List.mem_singleton.2 rfl))).2
    exact List.pairwise_pair.2 less
  | again _ _ carries _ _ ih =>
    rw [List.forall_mem_cons] at regular
    have less := (carries.monitors regular.1).2
    have rest := ih regular.2
    refine List.pairwise_cons.2 ⟨List.forall_mem_cons.2 ⟨less, fun q mem ↦ ?_⟩, rest⟩
    exact RealScalar.le_iff.2 (le_trans ((List.pairwise_cons.1 rest).1 q mem) less)

/-- **GMRES monitors the true residual.**  After every cycle in which no radius is taken for zero,
the last rotated entry is the norm of the residual, up to its sign, and that norm is at most the one
the cycle began with.  If all cycles are of this kind, residuals do not grow from cycle to cycle. -/
theorem solve_monitors (restart maxIters : Nat) (tol : RealScalar) (A : Mat RealScalar n n)
    (pc : Option (Preconditioner RealScalar)) (b x : Vector RealScalar n) :
    (∃ turns, (new restart tol maxIters).Solves A pc b x turns
      ((new restart tol maxIters).solveTable (Table.ofSquare A) pc b x)) ∧
    ∀ turns, (new restart tol maxIters).Solves A pc b x turns
        ((new restart tol maxIters).solveTable (Table.ofSquare A) pc b x) →
      (∀ turn ∈ turns, turn.Regular →
        norm (residual A b turn.finish) = Scalar.abs turn.cycle.estimate ∧
          norm (residual A b turn.finish) ≤ norm (residual A b turn.start)) ∧
      ((∀ turn ∈ turns, turn.Regular) → (norms A b x turns).Pairwise fun p q ↦ q ≤ p) := by
  rw [solveTable_ofSquare]
  refine ⟨solves A pc b (restart_pos restart maxIters tol) x, fun turns solved ↦ ?_⟩
  generalize (new restart tol maxIters).solve A pc b x = result at solved
  cases solved with
  | solved =>
    exact ⟨fun turn mem ↦ absurd mem List.not_mem_nil, fun _ ↦ List.pairwise_singleton _ _⟩
  | loop _ cycles =>
    refine ⟨fun turn mem regular ↦ ?_, cycles.norms_pairwise⟩
    obtain ⟨_, _, _, carries⟩ := cycles.carries turn mem
    exact carries.monitors regular

/-- The cycle of a solve with a single iteration and no preconditioner. -/
def Turn.single {α : Type} [Scalar α] {n : Nat} (A : Mat α n n) (b x : Vector α n) : Turn α n :=
  let start := Cycle.start (residual A b x)
  ⟨x, [start.radius A start.newest], start.along A start.newest⟩

theorem solves_single {α : Type} [Scalar α] {n : Nat} (A : Mat α n n) {b x : Vector α n} (tol : α)
    (nonzero : (norm (residual A b x) == 0) = false) :
    (new 1 tol 1).Solves A none b x [.single A b x] ((new 1 tol 1).solve A none b x) := by
  have room : 0 < (new 1 tol 1).stopping.maxIters := Nat.one_pos
  have holds : fitsBlock (3 * ((new 1 tol 1).restart + 1)) = true :=
    (by decide : fitsBlock (3 * (1 + 1)) = true)
  have run : (new 1 tol 1).iterate A none (norm (residual A b x)) (new 1 tol 1).restart 0
      (Cycle.start (residual A b x)) = .ok ((Turn.single A b x).cycle, 1, true) := by
    refine (iterate_succ 0 0 _).trans (if_pos ?_)
    simp [Stopping.check, new]
  have carries : (new 1 tol 1).Carries A none b (norm (residual A b x)) 0 (.single A b x) 1 true :=
    ⟨run, _, .extend .start rfl⟩
  have settles : (new 1 tol 1).settles
      ((new 1 tol 1).statistics A b (norm (residual A b x)) 1 (Turn.single A b x).finish) true =
        true := by
    simp [settles, statistics, new]
  have result : (new 1 tol 1).solve A none b x = .ok ((Turn.single A b x).finish,
      (new 1 tol 1).statistics A b (norm (residual A b x)) 1 (Turn.single A b x).finish) := by
    rw [solve_eq, nonzero, if_neg Bool.false_ne_true]
    refine (cycles_succ _ A none b _ 0 0 x _).trans ?_
    rw [if_pos room, if_pos holds, run]
    exact if_pos settles
  rw [result]
  exact .loop nonzero (.settled room holds carries settles)

/-- A system of one equation, solved with one iteration. -/
theorem solve_monitors_single :
    let A : Mat RealScalar 1 1 := Mat.ofFn fun _ _ ↦ 1
    let b : Vector RealScalar 1 := Vector.replicate 1 1
    ∃ turn, (new 1 0 1).Solves A none b (zeros RealScalar 1) [turn]
        ((new 1 0 1).solveTable (Table.ofSquare A) none b (zeros RealScalar 1)) ∧
      turn.Regular ∧ norm (residual A b turn.finish) = Scalar.abs turn.cycle.estimate := by
  intro A b
  have matrix : A.values = 1 := by
    ext i j
    rw [Mat.values, Mat.ofFn_apply, Subsingleton.elim i j, Matrix.one_apply_eq]
    rfl
  have left : values (residual A b (zeros RealScalar 1)) = 1 := by
    rw [residual, values_difference, values_mulVec, values_zeros, mulVec_zero, sub_zero]
    funext i
    rw [values, get_replicate]
    rfl
  have size : (norm (residual A b (zeros RealScalar 1))).value = 1 := by
    rw [value_norm, left]
    simp
  have nonzero : (norm (residual A b (zeros RealScalar 1))).value ≠ 0 := by
    rw [size]
    exact one_ne_zero
  have solved : (new 1 0 1).Solves A none b (zeros RealScalar 1)
      [.single A b (zeros RealScalar 1)]
      ((new 1 0 1).solveTable (Table.ofSquare A) none b (zeros RealScalar 1)) := by
    rw [solveTable_ofSquare]
    exact solves_single A 0 (RealScalar.arithmetic.beq_zero_eq_false_iff.2 nonzero)
  have regular : (Turn.single A b (zeros RealScalar 1)).Regular := by
    intro ρ mem
    rw [List.mem_singleton.1 mem, RealScalar.lt_iff]
    generalize residual A b (zeros RealScalar 1) = r at *
    have ahead : direction r = 1 := by rw [direction, left, size, div_one, one_smul]
    have last : ((Cycle.start r).rotated A (Cycle.start r).newest).2.value = 1 := by
      rw [Cycle.value_rotated_start, matrix, one_mulVec, Cycle.values_newest_start, ahead]
      simp
    rw [Cycle.value_radius, last, mul_one]
    exact threshold_lt_one.trans_le
      (Real.one_le_sqrt.2 (le_add_of_nonneg_right (mul_self_nonneg _)))
  exact ⟨_, solved, regular, (((solve_monitors 1 1 0 A none b (zeros RealScalar 1)).2 _ solved).1 _
    (List.mem_singleton.2 rfl) regular).1⟩

end Gmres

end OperatingPoint
