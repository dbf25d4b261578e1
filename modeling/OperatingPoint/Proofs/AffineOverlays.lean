import Mathlib.Tactic.Ring
import OperatingPoint.Proofs.DiagonalShifts
import OperatingPoint.Proofs.ScalarArithmetic

/-!
# Affine systems under an overlay

What an overlay does to a residual and what it does to a Jacobian are written apart from each other.
They belong together: on a system that is affine, the augmented residual is affine with the augmented
Jacobian for its slope, row by row.  Conductances, a clamp over any of the same unknowns and a blend
may be combined.  A full Newton step with the augmented Jacobian then lands on a zero of the
augmented residual.
-/

set_option autoImplicit false

namespace OperatingPoint

open Step

variable {K α : Type} [Field K] [LinearOrder K] [IsStrictOrderedRing K] [Scalar α] {n : Nat}

/-! ## Vectors of numbers -/

/-- All entries of a vector are numbers. -/
def Numbers (x : Vector α n) : Prop := ∀ i, Scalar.isFinite (x.get i) = true

instance Numbers.instDecidable (x : Vector α n) : Decidable (Numbers x) :=
  inferInstanceAs (Decidable (∀ i, Scalar.isFinite (x.get i) = true))

namespace Scalar.Line

variable (line : Line K α)

/-- A vector of numbers. -/
def vector (p : Fin n → K) : Vector α n := Vector.ofFn fun i ↦ line.of (p i)

@[simp] theorem get_vector (p : Fin n → K) (i : Fin n) : (line.vector p).get i = line.of (p i) :=
  get_ofFn ..

theorem exists_vector {x : Vector α n} (numbers : Numbers x) : ∃ p, x = line.vector p := by
  choose p entry using fun i ↦ line.finite_iff.1 (numbers i)
  exact ⟨p, ext_get fun i ↦ (entry i).trans (line.get_vector p i).symm⟩

theorem sum_of (f : Fin n → K) : sum (fun j ↦ line.of (f j)) = line.of (∑ j, f j) :=
  line.arithmetic.sum_of f

/-! ## Slopes -/

/-- A row of a Jacobian is the slope of an affine equation. -/
def Slope (row : Fin n → α) (value : Vector α n → α) : Prop :=
  ∃ (m : Fin n → K) (c : K), (∀ j, row j = line.of (m j)) ∧
    ∀ p, value (line.vector p) = line.of (∑ j, m j * p j - c)

variable {line} {row : Fin n → α} {value : Vector α n → α}

/-- A row of a system `A x - b`. -/
theorem slope_affine {A : Mat α n n} {b : Vector α n} {i : Fin n}
    (matrix : ∀ j, Scalar.isFinite (A i j) = true) (numbers : Numbers b) :
    line.Slope (A i) fun x ↦ (difference (A.mulVec x) b).get i := by
  choose m entry using fun j ↦ line.finite_iff.1 (matrix j)
  obtain ⟨c, rightHandSide⟩ := line.finite_iff.1 (numbers i)
  refine ⟨m, c, entry, fun p ↦ ?_⟩
  simp only [get_difference, Mat.get_mulVec, get_vector, entry, rightHandSide, ← line.mul,
    line.sum_of, ← line.sub]

/-- What is added to a diagonal entry is added to the residual in proportion to the unknown. -/
theorem Slope.shift (h : line.Slope row value) (i : Fin n) {t : α}
    (number : Scalar.isFinite t = true) :
    line.Slope (fun j ↦ if i = j then row j + t else row j) fun x ↦ value x + t * x.get i := by
  obtain ⟨m, c, entry, affine⟩ := h
  obtain ⟨t, rfl⟩ := line.finite_iff.1 number
  refine ⟨fun j ↦ if i = j then m j + t else m j, c, fun j ↦ ?_, fun p ↦ ?_⟩
  · simp only [entry, ← line.add, apply_ite line.of]
  · have grown : ∀ j, (if i = j then m j + t else m j) * p j =
        m j * p j + if i = j then t * p j else 0 := by
      intro j
      split <;> ring
    simp only [affine, get_vector, ← line.mul, ← line.add, grown, Finset.sum_add_distrib,
      Finset.sum_ite_eq, Finset.mem_univ, if_true]
    congr 1
    ring

/-- A row of the identity goes with the distance from a value. -/
theorem slope_pinned (i : Fin n) {v : α} (number : Scalar.isFinite v = true) :
    line.Slope (fun j ↦ if i = j then 1 else 0) fun x ↦ x.get i - v := by
  obtain ⟨v, rfl⟩ := line.finite_iff.1 number
  refine ⟨fun j ↦ if i = j then 1 else 0, v, fun j ↦ ?_, fun p ↦ ?_⟩
  · simp only [apply_ite line.of, line.one, line.zero]
  · simp only [get_vector, ← line.sub, ite_mul, one_mul, zero_mul, Finset.sum_ite_eq,
      Finset.mem_univ, if_true]

/-- A blend of a row with one of the identity goes with the blend of the residual with the distance
from a start point. -/
theorem Slope.blend (h : line.Slope row value) (i : Fin n) {l start : α}
    (number : Scalar.isFinite l = true) (point : Scalar.isFinite start = true) :
    line.Slope (fun j ↦ if i = j then row j * l + (1 - l) else row j * l)
      fun x ↦ l * value x + (1 - l) * (x.get i - start) := by
  obtain ⟨m, c, entry, affine⟩ := h
  obtain ⟨l, rfl⟩ := line.finite_iff.1 number
  obtain ⟨s, rfl⟩ := line.finite_iff.1 point
  refine ⟨fun j ↦ if i = j then m j * l + (1 - l) else m j * l, l * c + (1 - l) * s,
    fun j ↦ ?_, fun p ↦ ?_⟩
  · simp only [entry, ← line.one, ← line.sub, ← line.mul, ← line.add, apply_ite line.of]
  · have blended : ∀ j, (if i = j then m j * l + (1 - l) else m j * l) * p j =
        l * (m j * p j) + if i = j then (1 - l) * p j else 0 := by
      intro j
      split <;> ring
    simp only [affine, get_vector, ← line.one, ← line.mul, ← line.sub, ← line.add, blended,
      Finset.sum_add_distrib, ← Finset.mul_sum, Finset.sum_ite_eq, Finset.mem_univ, if_true]
    congr 1
    ring

end Scalar.Line

/-! ## The hooks as they change one row -/

section

omit [Field K] [LinearOrder K] [IsStrictOrderedRing K]

/-- The currents to reference are added in the rows of the partition. -/
theorem Gmin.augmentResidual_eq {g : Gmin α} (fits : ∀ i ∈ g.partition.indices, i < n)
    (x f : Vector α n) :
    g.augmentResidual x f = .ok (Vector.ofFn fun i ↦
      if i.val ∈ g.partition.indices then f.get i + g.tie i * x.get i else f.get i) := by
  have added : ∀ (indices : List Nat) (f : Vector α n), indices.Nodup → (∀ i ∈ indices, i < n) →
      indices.foldlM
        (fun f i ↦ do writeAt f i ((← readAt f i) + g.tie i * (← readAt x i))) f =
      .ok (Vector.ofFn fun i ↦
        if i.val ∈ indices then f.get i + g.tie i * x.get i else f.get i) := by
    intro indices
    induction indices with
    | nil => exact fun f _ _ ↦ congrArg Except.ok (ext_get fun i ↦ by simp)
    | cons k rest ih =>
      intro f distinct fits
      obtain ⟨foreign, distinct⟩ := List.nodup_cons.1 distinct
      obtain ⟨bound, fits⟩ := List.forall_mem_cons.1 fits
      have read : ∀ v : Vector α n, readAt v k = .ok (v.get ⟨k, bound⟩) := fun v ↦ dif_pos bound
      have written : ∀ u, writeAt f k u = .ok (f.set k u) := fun u ↦ dif_pos bound
      rw [List.foldlM_cons]
      refine bind_eq_ok.2 ⟨_, bind_eq_ok.2 ⟨_, read f, bind_eq_ok.2 ⟨_, read x, written _⟩⟩, ?_⟩
      refine (ih _ distinct fits).trans (congrArg Except.ok (ext_get fun i ↦ ?_))
      simp only [get_ofFn, List.mem_cons, get_set f ⟨k, bound⟩, Fin.ext_iff]
      by_cases own : k = i.val
      · subst own
        simp [foreign]
      · simp [own, Ne.symm own]
  exact added _ f g.partition.nodup_indices fits

/-- The rows of a clamp become distances from its values. -/
theorem Clamp.augmentResidual_eq {c : Clamp α} (fits : ∀ i ∈ c.rows, i < n) (x f : Vector α n) :
    c.augmentResidual x f = .ok (Vector.ofFn fun i ↦
      ((c.pairs.lookup i.val).map fun v ↦ x.get i - v).getD (f.get i)) := by
  have written : ∀ (pairs : List (Nat × α)) (f : Vector α n), (pairs.map Prod.fst).Nodup →
      (∀ pair ∈ pairs, pair.1 < n) →
      pairs.foldlM (fun f pair ↦ do writeAt f pair.1 ((← readAt x pair.1) - pair.2)) f =
      .ok (Vector.ofFn fun i ↦
        ((pairs.lookup i.val).map fun v ↦ x.get i - v).getD (f.get i)) := by
    intro pairs
    induction pairs with
    | nil => exact fun f _ _ ↦ congrArg Except.ok (ext_get fun i ↦ by simp)
    | cons pair rest ih =>
      intro f distinct fits
      obtain ⟨k, v⟩ := pair
      obtain ⟨foreign, distinct⟩ := List.nodup_cons.1 distinct
      obtain ⟨bound, fits⟩ := List.forall_mem_cons.1 fits
      have read : readAt x k = .ok (x.get ⟨k, bound⟩) := dif_pos bound
      have wrote : ∀ u, writeAt f k u = .ok (f.set k u) := fun u ↦ dif_pos bound
      rw [List.foldlM_cons]
      refine bind_eq_ok.2 ⟨_, bind_eq_ok.2 ⟨_, read, wrote _⟩, ?_⟩
      refine (ih _ distinct fits).trans (congrArg Except.ok (ext_get fun i ↦ ?_))
      simp only [get_ofFn, List.lookup_cons, get_set f ⟨k, bound⟩, Fin.ext_iff]
      by_cases own : k = i.val
      · subst own
        have later : rest.lookup i.val = none := by
          rw [List.lookup_eq_none_iff]
          intro pair there
          exact bne_iff_ne.2 fun same ↦ foreign (List.mem_map.2 ⟨pair, there, same.symm⟩)
        simp [later]
      · have other : (i.val == k) = false := beq_eq_false_iff_ne.2 (Ne.symm own)
        simp [own, other]
  refine written _ f c.nodup_pairs fun pair there ↦ fits _ (mem_rows there)

omit [Scalar α] in
theorem Clamp.lookup_held {c : Clamp α} {i : Nat} (held : i ∈ c.rows) :
    ∃ v ∈ c.values, c.pairs.lookup i = some v := by
  cases found : c.pairs.lookup i with
  | none =>
    obtain ⟨v, there⟩ := exists_pair held
    exact absurd rfl (bne_iff_ne.1 (List.lookup_eq_none_iff.1 found _ there))
  | some v =>
    obtain ⟨before, after, split, -⟩ := List.lookup_eq_some_iff.1 found
    have there : (i, v) ∈ c.pairs := split ▸ List.mem_append_right before (.head after)
    exact ⟨v, mem_values there, rfl⟩

omit [Scalar α] in
theorem Clamp.lookup_free {c : Clamp α} {i : Nat} (free : i ∉ c.rows) :
    c.pairs.lookup i = none :=
  List.lookup_eq_none_iff.2 fun _ there ↦ bne_iff_ne.2 fun same ↦ free (same ▸ mem_rows there)

end

/-! ## Overlays of affine systems -/

/-- A Jacobian and a residual that belong together. -/
def Scalar.Line.Slopes (line : Scalar.Line K α) (J : Mat α n n)
    (F : Vector α n → Vector α n) : Prop :=
  ∀ i, line.Slope (J i) fun x ↦ (F x).get i

/-- The values of a clamp are numbers. -/
def Clamp.Numeric (c : Clamp α) : Prop := ∀ v ∈ c.values, Scalar.isFinite v = true

/-- A blend of `n` unknowns is calculated from numbers. -/
structure Blend.Numeric (n : Nat) (b : Blend α) : Prop where
  length : b.start.size = n
  start : ∀ v ∈ b.start, Scalar.isFinite v = true
  lambda : Scalar.isFinite b.lambda = true

variable {line : Scalar.Line K α} {J : Mat α n n} {F : Vector α n → Vector α n}

namespace Scalar.Line.Slopes

/-- Residuals differ by what the Jacobian makes of the difference of the points. -/
theorem difference (h : line.Slopes J F) {x y : Vector α n} (number : Numbers x)
    (number' : Numbers y) :
    difference (F y) (F x) = J.mulVec (OperatingPoint.difference y x) := by
  obtain ⟨p, rfl⟩ := line.exists_vector number
  obtain ⟨q, rfl⟩ := line.exists_vector number'
  refine ext_get fun i ↦ ?_
  obtain ⟨m, c, entry, affine⟩ := h i
  simp only [get_difference, Mat.get_mulVec, get_vector, affine, entry, ← line.sub, ← line.mul,
    line.sum_of]
  congr 1
  simp only [mul_sub, Finset.sum_sub_distrib]
  ring

/-- A full Newton step lands on a zero. -/
theorem lands (h : line.Slopes J F) {x d : Vector α n} (number : Numbers x) (number' : Numbers d)
    (solved : J.mulVec d = Store.rightHandSide (F x)) : F (addScaled x 1 d) = zeros α n := by
  obtain ⟨p, rfl⟩ := line.exists_vector number
  obtain ⟨q, rfl⟩ := line.exists_vector number'
  have moved : addScaled (line.vector p) 1 (line.vector q) = line.vector (p + q) := by
    refine ext_get fun i ↦ ?_
    simp only [get_addScaled, get_vector, ← line.one, ← line.mul, ← line.add, one_mul, Pi.add_apply]
  refine ext_get fun i ↦ ?_
  obtain ⟨m, c, entry, affine⟩ := h i
  have row := congrArg (fun v ↦ v.get i) solved
  simp only [Mat.get_mulVec, Store.rightHandSide, get_ofFn, get_vector, affine, entry, ← line.mul,
    line.sum_of, ← line.neg] at row
  have balanced : ∑ j, m j * q j = -(∑ j, m j * p j - c) := line.injective row
  rw [moved]
  refine (affine (p + q)).trans ?_
  rw [get_zeros, ← line.zero]
  congr 1
  simp only [Pi.add_apply, mul_add, Finset.sum_add_distrib, balanced]
  ring

theorem conduct (h : line.Slopes J F) {indices : List Nat} {amount : Nat → α}
    (numbers : ∀ i, Scalar.isFinite (amount i) = true) :
    line.Slopes (J.shifted indices amount) fun x ↦ Vector.ofFn fun i ↦
      if i.val ∈ indices then (F x).get i + amount i * x.get i else (F x).get i := by
  intro i
  by_cases member : i.val ∈ indices
  · have row : J.shifted indices amount i = fun j ↦ if i = j then J i j + amount i else J i j := by
      funext j
      simp [Mat.shifted_apply, member]
    simp only [row, get_ofFn, if_pos member]
    exact (h i).shift i (numbers i)
  · have row : J.shifted indices amount i = J i := by
      funext j
      simp [Mat.shifted_apply, member]
    simp only [row, get_ofFn, if_neg member]
    exact h i

theorem clamp (h : line.Slopes J F) {c : Clamp α} (numbers : c.Numeric) :
    line.Slopes (J.pinned c.rows) fun x ↦ Vector.ofFn fun i ↦
      ((c.pairs.lookup i.val).map fun v ↦ x.get i - v).getD ((F x).get i) := by
  intro i
  by_cases member : i.val ∈ c.rows
  · obtain ⟨v, among, found⟩ := Clamp.lookup_held member
    have row : J.pinned c.rows i = fun j ↦ if i = j then 1 else 0 := by
      funext j
      simp [Mat.pinned_apply, member]
    simp only [row, get_ofFn, found]
    exact slope_pinned i (numbers v among)
  · have row : J.pinned c.rows i = J i := by
      funext j
      simp [Mat.pinned_apply, member]
    simp only [row, get_ofFn, Clamp.lookup_free member]
    exact h i

theorem blend (h : line.Slopes J F) {b : Blend α} (numbers : b.Numeric n) :
    line.Slopes (b.augmentJacobian J) fun x ↦ b.augmentResidual x (F x) := by
  intro i
  have bound : i.val < b.start.size := numbers.length ▸ i.isLt
  have value : ∀ x, (b.augmentResidual x (F x)).get i =
      b.lambda * (F x).get i + (1 - b.lambda) * (x.get i - b.start[i.val]) := by
    intro x
    rw [Blend.augmentResidual, get_ofFn, dif_pos ⟨i.isLt, bound⟩]
    rfl
  have row : b.augmentJacobian J i =
      fun j ↦ if i = j then J i j * b.lambda + (1 - b.lambda) else J i j * b.lambda := by
    funext j
    rw [Blend.augmentJacobian]
    split
    · -- At the end of a homotopy the Jacobian is left alone.
      rename_i whole
      obtain ⟨l, ofLambda⟩ := line.finite_iff.1 numbers.lambda
      rw [ofLambda, ← line.one, line.beq_iff] at whole
      obtain ⟨m, -, entry, -⟩ := h i
      simp [ofLambda, whole, entry, ← line.one, ← line.sub, ← line.mul, ← line.add]
    · simp [Fin.ext_iff]
  simp only [row, value]
  exact (h i).blend i numbers.lambda (numbers.start _ (Array.getElem_mem bound))

end Scalar.Line.Slopes

section

omit [Field K] [LinearOrder K] [IsStrictOrderedRing K]

/-- After a load, the currents to reference are those of its conductances. -/
theorem Gmin.augmentResidual_bearing {g : Gmin α} (fits : ∀ i ∈ g.partition.indices, i < n)
    (B : Mat α n n) (load : Nat) (onIt : Nat → α) (x f : Vector α n) :
    (g.bearing B load onIt).augmentResidual x f = .ok (Vector.ofFn fun i ↦
      if i.val ∈ g.partition.indices then f.get i + g.amountOn B i * x.get i else f.get i) := by
  refine (augmentResidual_eq (g := g.bearing B load onIt) fits x f).trans
    (congrArg Except.ok (ext_get fun i ↦ ?_))
  rw [get_ofFn, get_ofFn]
  refine if_ctx_congr Iff.rfl (fun member ↦ ?_) fun _ ↦ rfl
  rw [tie_eq (g := g.bearing B load onIt) rfl member]
  rfl

end

/-- The strategies that leave an affine system affine, with numbers for what they add. -/
def Augmentation.Affine : Augmentation α → Prop
  | gmin g => g.Numeric
  | clamp c => c.Numeric
  | clampWithGmin g c => g.Numeric ∧ c.Numeric
  | pseudoTransient _ | seed _ => False

/-- What a strategy does to the Jacobian of a fresh load and what it does to the residuals after it
belong together. -/
theorem Augmentation.slopes (powers : line.Powers) {a : Augmentation α} (affine : a.Affine)
    (fits : a.Fits n) {load : Nat} (fresh : ∀ s, a.shift? = some s → s.isFresh load = true)
    (h : line.Slopes J F) :
    ∃ a' J' G, a.augmentJacobian J load = .ok (a', J') ∧
      (∀ x, a'.augmentResidual x (F x) = .ok (a', G x)) ∧ line.Slopes J' G := by
  cases a with
  | gmin g =>
    have within := fits g.partition (.head _)
    have conducted := Gmin.augmentResidual_bearing within J load (g.amountOn J)
    refine ⟨_, _, _, bind_eq_ok.2 ⟨_, Gmin.augmentJacobian_fresh (fresh _ rfl) within, rfl⟩,
      fun x ↦ bind_eq_ok.2 ⟨_, conducted x (F x), rfl⟩, ?_⟩
    exact h.conduct (Gmin.Numeric.amountOn affine powers J)
  | clamp c =>
    have within := fits c.partition (.head _)
    refine ⟨_, _, _, bind_eq_ok.2 ⟨_, Clamp.augmentJacobian_eq within J, rfl⟩,
      fun x ↦ bind_eq_ok.2 ⟨_, Clamp.augmentResidual_eq within x (F x), rfl⟩, ?_⟩
    exact h.clamp affine
  | clampWithGmin g c =>
    have within := fits g.partition (.head _)
    have within' := fits c.partition (.tail _ (.head _))
    have conducted := Gmin.augmentResidual_bearing within J load (g.amountOn J)
    refine ⟨_, _, _,
      bind_eq_ok.2 ⟨_, Gmin.augmentJacobian_fresh (fresh _ rfl) within,
        bind_eq_ok.2 ⟨_, Clamp.augmentJacobian_eq within' _, rfl⟩⟩,
      fun x ↦ bind_eq_ok.2 ⟨_, conducted x (F x),
        bind_eq_ok.2 ⟨_, Clamp.augmentResidual_eq within' x _, rfl⟩⟩, ?_⟩
    exact (h.conduct (affine.1.amountOn powers J)).clamp affine.2
  | pseudoTransient | seed => exact affine.elim

namespace Overlay

/-- An overlay that leaves an affine system of `n` unknowns affine, before a load that is new. -/
structure Affine (n load : Nat) (o : Overlay α) : Prop where
  strategy : ∀ a, o.strategy = some a → a.Affine
  fits : o.Fits n
  fresh : ∀ a, o.strategy = some a → ∀ s, a.shift? = some s → s.isFresh load = true
  blend : ∀ b, o.blend = some b → b.Numeric n

theorem slopes_blend {o : Overlay α} (numbers : ∀ b, o.blend = some b → b.Numeric n)
    (h : line.Slopes J F) :
    line.Slopes (o.blendJacobian J) fun x ↦ o.blendResidual x (F x) := by
  unfold blendJacobian blendResidual
  cases attached : o.blend with
  | none => exact h
  | some b => exact h.blend (numbers b attached)

theorem slopes (powers : line.Powers) {o : Overlay α} {load : Nat} (affine : o.Affine n load)
    (h : line.Slopes J F) :
    ∃ o' J' G, o.augmentJacobian load J = .ok (o', J') ∧
      (∀ x, o'.augmentResidual x (F x) = .ok (o', G x)) ∧ line.Slopes J' G := by
  cases attached : o.strategy with
  | none =>
    exact ⟨_, _, _, augmentJacobian_none attached load J,
      fun x ↦ augmentResidual_none attached x (F x), slopes_blend affine.blend h⟩
  | some a =>
    obtain ⟨a', J', G, changed, residuals, slopes⟩ := Augmentation.slopes powers
      (affine.strategy a attached) (affine.fits a attached) (affine.fresh a attached) h
    refine ⟨{ o with strategy := some a' }, _, _, ?_, fun x ↦ ?_, slopes_blend affine.blend slopes⟩
    · rw [augmentJacobian_some attached, changed]
      rfl
    · rw [augmentResidual_some rfl, residuals x]
      rfl

end Overlay

/-- Residual and Jacobian under an overlay belong together.  For a system `A x - b` under
conductances, a clamp or both, over any unknowns, and under a blend, let the Jacobian be augmented
for a new load and the residuals after it.  Then residuals differ by what the augmented Jacobian
makes of the difference of the points, and a full Newton step from any point lands on a zero. -/
theorem newton_step_lands (powers : line.Powers) {o : Overlay α} {load : Nat}
    (affine : o.Affine n load) {A : Mat α n n} {b : Vector α n}
    (matrix : ∀ i, Numbers (A.rows.get i)) (rightHandSide : Numbers b) :
    ∃ (o' : Overlay α) (J' : Mat α n n) (G : Vector α n → Vector α n),
      o.augmentJacobian load A = .ok (o', J') ∧
      (∀ x, o'.augmentResidual x (difference (A.mulVec x) b) = .ok (o', G x)) ∧
      (∀ x y, Numbers x → Numbers y →
        difference (G y) (G x) = J'.mulVec (difference y x)) ∧
      ∀ x d, Numbers x → Numbers d → J'.mulVec d = Store.rightHandSide (G x) →
        G (addScaled x 1 d) = zeros α n := by
  obtain ⟨o', J', G, changed, residuals, slopes⟩ := Overlay.slopes powers affine
    fun i ↦ Scalar.Line.slope_affine (matrix i) rightHandSide
  exact ⟨o', J', G, changed, residuals, fun _ _ ↦ slopes.difference, fun _ _ ↦ slopes.lands⟩

/-- Conductances on two unknowns, the first of which is without an element, a clamp on the second,
and a blend half way from a start point. -/
theorem newton_step_lands_overlapping :
    let g : Gmin ExtendedRat :=
      { partition := .full 2, progress := .number (-1), stop := .number (-1), floor := 0 }
    let c : Clamp ExtendedRat := ⟨⟨.ofList [1], 2, by decide⟩, [.number 5], rfl⟩
    let o : Overlay ExtendedRat :=
      { strategy := some (.clampWithGmin g c), blend := some ⟨#[0, 1], .number (1 / 2)⟩ }
    let A : Mat ExtendedRat 2 2 := ⟨#v[#v[0, 0], #v[.number 4, .number 7]]⟩
    ∃ (o' : Overlay ExtendedRat) (J' : Mat ExtendedRat 2 2)
      (G : Vector ExtendedRat 2 → Vector ExtendedRat 2), o.augmentJacobian 7 A = .ok (o', J') ∧
      (∀ x, o'.augmentResidual x (difference (A.mulVec x) #v[1, 1]) = .ok (o', G x)) ∧
      difference (G #v[.number 3, .number 4]) (G #v[1, 1]) =
        J'.mulVec #v[.number 2, .number 3] := by
  intro g c o A
  have affine : o.Affine 2 7 := by
    refine ⟨fun a attached ↦ ?_, fun a attached ↦ ?_, fun a attached s shift ↦ ?_, fun b blend ↦ ?_⟩
    · cases attached
      exact ⟨⟨rfl, rfl, rfl⟩, List.forall_mem_singleton.2 rfl⟩
    · cases attached
      show ∀ p ∈ [g.partition, c.partition], ∀ i ∈ p.indices, i < 2
      decide
    · cases attached
      cases shift
      rfl
    · cases blend
      exact ⟨rfl, by decide, rfl⟩
  have matrix : ∀ i, Numbers (A.rows.get i) := by decide
  have rightHandSide : Numbers (#v[1, 1] : Vector ExtendedRat 2) := by decide
  obtain ⟨o', J', G, changed, residuals, belong, -⟩ :=
    newton_step_lands ExtendedRat.line_powers affine matrix rightHandSide
  refine ⟨o', J', G, changed, residuals, (belong _ _ (by decide) (by decide)).trans ?_⟩
  exact congrArg J'.mulVec (by decide +kernel)

end OperatingPoint
