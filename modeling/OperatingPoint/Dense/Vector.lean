import OperatingPoint.Scalar

/-!
# Dense vectors

Sums over an index range, taken in order from zero, and the few operations on vectors of a fixed
length that the solvers need.  A vector is read through `x.get i`.  Every operation builds its
result entry by entry, and its lemma says what the entries are.
-/

set_option autoImplicit false

namespace OperatingPoint

variable {α : Type} {n : Nat}

@[simp] theorem get_ofFn (f : Fin n → α) (i : Fin n) : (Vector.ofFn f).get i = f i :=
  Vector.getElem_ofFn i.isLt

@[simp] theorem get_replicate (v : α) (i : Fin n) : (Vector.replicate n v).get i = v :=
  Vector.getElem_replicate i.isLt

theorem get_set (x : Vector α n) (i j : Fin n) (v : α) :
    (x.set i v i.isLt).get j = if i = j then v else x.get j :=
  (Vector.getElem_set i.isLt j.isLt).trans (by simp only [Fin.ext_iff]; rfl)

theorem ext_get {x y : Vector α n} (h : ∀ i : Fin n, x.get i = y.get i) : x = y :=
  Vector.ext fun i hi ↦ h ⟨i, hi⟩

variable [Scalar α]

/-- The sum of `f 0`, `f 1`, …, added in this order to zero. -/
def sum (f : Fin n → α) : α := (List.finRange n).foldl (fun s j ↦ s + f j) 0

/-- The inner product of two vectors. -/
def dot (x y : Vector α n) : α := sum fun i ↦ x.get i * y.get i

/-- The Euclidean length of a vector. -/
def norm (x : Vector α n) : α := Scalar.sqrt (dot x x)

/-- The vector of zeros. -/
def zeros (α : Type) [Scalar α] (n : Nat) : Vector α n := Vector.replicate n 0

/-- `x + c y`. -/
def addScaled (x : Vector α n) (c : α) (y : Vector α n) : Vector α n :=
  Vector.ofFn fun i ↦ x.get i + c * y.get i

/-- `x - c y`. -/
def subScaled (x : Vector α n) (c : α) (y : Vector α n) : Vector α n :=
  Vector.ofFn fun i ↦ x.get i - c * y.get i

/-- `x - y`. -/
def difference (x y : Vector α n) : Vector α n := Vector.ofFn fun i ↦ x.get i - y.get i

@[simp] theorem get_zeros (i : Fin n) : (zeros α n).get i = 0 := by simp [zeros]

@[simp] theorem get_addScaled (x : Vector α n) (c : α) (y : Vector α n) (i : Fin n) :
    (addScaled x c y).get i = x.get i + c * y.get i := by simp [addScaled]

@[simp] theorem get_subScaled (x : Vector α n) (c : α) (y : Vector α n) (i : Fin n) :
    (subScaled x c y).get i = x.get i - c * y.get i := by simp [subScaled]

@[simp] theorem get_difference (x y : Vector α n) (i : Fin n) :
    (difference x y).get i = x.get i - y.get i := by simp [difference]

end OperatingPoint
