import OperatingPoint.Device
import OperatingPoint.Linear.FullPivot

/-!
# Exact arithmetic

`Scalar.Exact` lists what is relied on where arithmetic is said to be exact.  The finite scalars
calculate without rounding, and what is not finite stays so when something is added to it, taken
from it or multiplied by it.  Nothing is said of roots and powers.

A scalar is *null* if it is zero or not finite at all.  What is calculated from null scalars alone is
null, and so is a product with one: a component in which nothing is there gets nothing, or breaks.

A direct solver is exact if what it answers is a solution, as far as it is finite.  Equations that
hold something that is no number are not looked at.

The rational numbers, with what a quotient by zero is, are exact.  A direct solver over them that
looks at its answers is exact too.
-/

set_option autoImplicit false

namespace OperatingPoint

namespace Scalar

/-- Arithmetic without rounding. -/
structure Exact (α : Type) [Scalar α] : Prop where
  eq_of_beq : ∀ {a b : α}, (a == b) = true → a = b
  zero_beq_zero : ((0 : α) == 0) = true
  finite_zero : isFinite (0 : α) = true
  finite_one : isFinite (1 : α) = true
  finite_half : isFinite (0.5 : α) = true
  finite_sub : ∀ {a b : α}, isFinite a = true → isFinite b = true → isFinite (a - b) = true
  finite_mul : ∀ {a b : α}, isFinite a = true → isFinite b = true → isFinite (a * b) = true
  add_zero : ∀ {a : α}, isFinite a = true → a + 0 = a
  zero_add : ∀ {a : α}, isFinite a = true → 0 + a = a
  sub_self : ∀ {a : α}, isFinite a = true → a - a = 0
  add_sub_cancel : ∀ {a b : α}, isFinite a = true → isFinite b = true → a + (b - a) = b
  neg_zero : -(0 : α) = 0
  mul_zero : ∀ {a : α}, isFinite a = true → a * 0 = 0
  zero_mul : ∀ {a : α}, isFinite a = true → 0 * a = 0
  one_mul : ∀ {a : α}, isFinite a = true → 1 * a = a
  div_self : ∀ {a : α}, isFinite a = true → (a == 0) = false → a / a = 1
  zero_div : ∀ {a : α}, isFinite (0 / a) = true → 0 / a = 0
  finite_of_add : ∀ {a b : α}, isFinite (a + b) = true → isFinite a = true ∧ isFinite b = true
  finite_of_sub : ∀ {a b : α}, isFinite (a - b) = true → isFinite a = true ∧ isFinite b = true
  finite_of_mul : ∀ {a b : α}, isFinite (a * b) = true → isFinite a = true ∧ isFinite b = true
  finite_of_div : ∀ {a b : α}, isFinite (a / b) = true → isFinite a = true

/-- A scalar that is zero, or not finite. -/
def Null {α : Type} [Scalar α] (a : α) : Prop := isFinite a = true → a = 0

namespace Null

variable {α : Type} [Scalar α] {a b : α}

theorem zero : Null (0 : α) := fun _ ↦ rfl

theorem add (exact : Exact α) (ha : Null a) (hb : Null b) : Null (a + b) := by
  intro finite
  obtain ⟨fa, fb⟩ := exact.finite_of_add finite
  rw [ha fa, hb fb, exact.add_zero exact.finite_zero]

theorem sub (exact : Exact α) (ha : Null a) (hb : Null b) : Null (a - b) := by
  intro finite
  obtain ⟨fa, fb⟩ := exact.finite_of_sub finite
  rw [ha fa, hb fb, exact.sub_self exact.finite_zero]

theorem mul_right (exact : Exact α) (ha : Null a) (b : α) : Null (a * b) := by
  intro finite
  obtain ⟨fa, fb⟩ := exact.finite_of_mul finite
  rw [ha fa, exact.zero_mul fb]

theorem mul_left (exact : Exact α) (hb : Null b) (a : α) : Null (a * b) := by
  intro finite
  obtain ⟨fa, fb⟩ := exact.finite_of_mul finite
  rw [hb fb, exact.mul_zero fa]

theorem div (exact : Exact α) (ha : Null a) (b : α) : Null (a / b) := by
  intro finite
  have zero := ha (exact.finite_of_div finite)
  subst zero
  exact exact.zero_div finite

end Null

end Scalar

/-- An answer of the direct solver that is finite solves the equations with finite coefficients. -/
def DirectSolver.Exact (α : Type) [Scalar α] [DirectSolver α] : Prop :=
  ∀ {n : Nat} (A : Mat α n n) (b : Vector α n),
    (∀ i, Scalar.isFinite ((DirectSolver.solve (DirectSolver.factor A) b).get i) = true) →
    ∀ i, (∀ j, Scalar.isFinite (A i j) = true) → Scalar.isFinite (b.get i) = true →
      (A.mulVec (DirectSolver.solve (DirectSolver.factor A) b)).get i = b.get i

/-! ## Rational numbers -/

/-- The rational numbers, two infinite ones, and what is undefined. -/
inductive ExtendedRat where
  | number (q : Rat)
  | infinite (negative : Bool)
  | undefined
  deriving DecidableEq

namespace ExtendedRat

def neg : ExtendedRat → ExtendedRat
  | number a => number (-a)
  | infinite s => infinite (!s)
  | undefined => undefined

def add : ExtendedRat → ExtendedRat → ExtendedRat
  | number a, number b => number (a + b)
  | number _, infinite s => infinite s
  | infinite s, number _ => infinite s
  | infinite s, infinite t => if s = t then infinite s else undefined
  | _, _ => undefined

def mul : ExtendedRat → ExtendedRat → ExtendedRat
  | number a, number b => number (a * b)
  | number a, infinite s => if a = 0 then undefined else infinite (s != decide (a < 0))
  | infinite s, number b => if b = 0 then undefined else infinite (s != decide (b < 0))
  | infinite s, infinite t => infinite (s != t)
  | _, _ => undefined

def div : ExtendedRat → ExtendedRat → ExtendedRat
  | number a, number b =>
    if b = 0 then if a = 0 then undefined else infinite (decide (a < 0)) else number (a / b)
  | number _, infinite _ => number 0
  | infinite s, number b => infinite (s != decide (b < 0))
  | _, _ => undefined

/-- Whether one value is below another.  What is undefined is below nothing. -/
def below : ExtendedRat → ExtendedRat → Bool
  | number a, number b => a < b
  | number _, infinite s => !s
  | infinite s, number _ => s
  | infinite s, infinite t => s && !t
  | _, _ => false

/-- Whether two values are equal.  What is undefined equals nothing. -/
def same : ExtendedRat → ExtendedRat → Bool
  | undefined, _ => false
  | a, b => decide (a = b)

def isNumber : ExtendedRat → Bool
  | number _ => true
  | _ => false

/-- A number read from a value, zero if it is none. -/
def toRat : ExtendedRat → Rat
  | number q => q
  | _ => 0

instance instScalar : Scalar ExtendedRat where
  zero := number 0
  one := number 1
  add := add
  sub a b := add a (neg b)
  mul := mul
  div := div
  neg := neg
  natCast k := number k
  ofScientific m s e := number (OfScientific.ofScientific m s e)
  lt a b := below a b = true
  le a b := (below a b || same a b) = true
  beq := same
  decidableLT a b := inferInstanceAs (Decidable (below a b = true))
  decidableLE a b := inferInstanceAs (Decidable ((below a b || same a b) = true))
  abs a := if below a (number 0) then neg a else a
  sqrt
    | number q => if q < 0 then undefined else number (mkRat q.num.toNat.sqrt q.den.sqrt)
    | infinite s => if s then undefined else infinite s
    | undefined => undefined
  exp10
    | number q => number (10 ^ q.floor)
    | infinite s => if s then number 0 else infinite s
    | undefined => undefined
  infinity := infinite false
  undefined := undefined
  isUndefined a := decide (a = undefined)
  isFinite := isNumber
  floor a := a.toRat.floor.toNat
  halvings a b := (a.toRat / b.toRat).floor.toNat.log2 + 1

variable {a b : ExtendedRat}

theorem exists_of_finite (h : Scalar.isFinite a = true) : ∃ q, a = number q := by
  cases a with
  | number q => exact ⟨q, rfl⟩
  | infinite s => cases h
  | undefined => cases h

theorem exists_of_add (h : Scalar.isFinite (a + b) = true) :
    ∃ p q, a = number p ∧ b = number q := by
  cases a <;> cases b <;> try cases h
  · exact ⟨_, _, rfl, rfl⟩
  · -- Infinite values add up to an infinite one, or to none at all.
    change isNumber (if _ then _ else _) = true at h
    split at h <;> cases h

theorem exists_of_mul (h : Scalar.isFinite (a * b) = true) :
    ∃ p q, a = number p ∧ b = number q := by
  cases a <;> cases b <;> try cases h
  · exact ⟨_, _, rfl, rfl⟩
  all_goals
    change isNumber (if _ then _ else _) = true at h
    split at h <;> cases h

theorem finite_of_neg (h : Scalar.isFinite (neg a) = true) : Scalar.isFinite a = true := by
  cases a with
  | number q => rfl
  | infinite s => cases h
  | undefined => cases h

theorem exact : Scalar.Exact ExtendedRat where
  eq_of_beq {a b} h := by
    change same a b = true at h
    unfold same at h
    split at h
    · cases h
    · exact of_decide_eq_true h
  zero_beq_zero := rfl
  finite_zero := rfl
  finite_one := rfl
  finite_half := rfl
  finite_sub ha hb := by
    obtain ⟨p, rfl⟩ := exists_of_finite ha
    obtain ⟨q, rfl⟩ := exists_of_finite hb
    rfl
  finite_mul ha hb := by
    obtain ⟨p, rfl⟩ := exists_of_finite ha
    obtain ⟨q, rfl⟩ := exists_of_finite hb
    rfl
  add_zero ha := by
    obtain ⟨p, rfl⟩ := exists_of_finite ha
    exact congrArg number (Rat.add_zero p)
  zero_add ha := by
    obtain ⟨p, rfl⟩ := exists_of_finite ha
    exact congrArg number (Rat.zero_add p)
  sub_self ha := by
    obtain ⟨p, rfl⟩ := exists_of_finite ha
    exact congrArg number (Rat.add_neg_cancel p)
  add_sub_cancel ha hb := by
    obtain ⟨p, rfl⟩ := exists_of_finite ha
    obtain ⟨q, rfl⟩ := exists_of_finite hb
    exact congrArg number (by grind : p + (q + -p) = q)
  neg_zero := rfl
  mul_zero ha := by
    obtain ⟨p, rfl⟩ := exists_of_finite ha
    exact congrArg number (Rat.mul_zero p)
  zero_mul ha := by
    obtain ⟨p, rfl⟩ := exists_of_finite ha
    exact congrArg number (Rat.zero_mul p)
  one_mul ha := by
    obtain ⟨p, rfl⟩ := exists_of_finite ha
    exact congrArg number (Rat.one_mul p)
  div_self ha nonzero := by
    obtain ⟨p, rfl⟩ := exists_of_finite ha
    have other : p ≠ 0 := by
      rintro rfl
      cases nonzero
    change (if p = 0 then _ else number (p / p)) = number 1
    rw [if_neg other, Rat.div_def, Rat.mul_inv_cancel p other]
  zero_div {a} h := by
    cases a with
    | number p =>
      change isNumber (if p = 0 then _ else number (0 / p)) = true at h
      change (if p = 0 then _ else number (0 / p)) = number 0
      split at h
      · cases h
      · rename_i other
        rw [if_neg other, Rat.div_def, Rat.zero_mul]
    | infinite s => rfl
    | undefined => cases h
  finite_of_add h := by
    obtain ⟨p, q, rfl, rfl⟩ := exists_of_add h
    exact ⟨rfl, rfl⟩
  finite_of_sub {a b} h := by
    obtain ⟨p, q, rfl, negated⟩ := exists_of_add (b := neg b) h
    refine ⟨rfl, finite_of_neg ?_⟩
    rw [negated]
    rfl
  finite_of_mul h := by
    obtain ⟨p, q, rfl, rfl⟩ := exists_of_mul h
    exact ⟨rfl, rfl⟩
  finite_of_div {a b} h := by
    cases a <;> cases b <;> first | rfl | cases h

/-- Elimination with full pivoting, whose answer is thrown away if it is none. -/
instance instDirectSolver : DirectSolver ExtendedRat where
  Factors n := Mat ExtendedRat n n
  factor A := A
  solve A b :=
    let x := (FullPivot.ofMatrix A).solve b
    if ∀ i, (A.mulVec x).get i = b.get i then x else Vector.replicate _ undefined

theorem solve_factor {n : Nat} (A : Mat ExtendedRat n n) (b : Vector ExtendedRat n) :
    DirectSolver.solve (DirectSolver.factor A) b =
      if ∀ i, (A.mulVec ((FullPivot.ofMatrix A).solve b)).get i = b.get i then
        (FullPivot.ofMatrix A).solve b
      else Vector.replicate n undefined := rfl

theorem direct_exact : DirectSolver.Exact ExtendedRat := by
  intro n A b finite i _ _
  rw [solve_factor] at finite ⊢
  split
  · rename_i solves
    exact solves i
  · rename_i unsolved
    have broken := finite i
    rw [if_neg unsolved, get_replicate] at broken
    cases broken

end ExtendedRat

/-- A device layer of exact numbers, in which a conductance leads from each unknown to reference and
carries a current.  Parameters with other names are taken and forgotten. -/
structure Conductors where
  unknowns : Nat := 1
  conductance : ExtendedRat := 1
  current : ExtendedRat := 0

namespace Conductors

instance instDevice : Device Conductors ExtendedRat where
  unknowns c := c.unknowns
  loadResidual c x _ _ := ⟨true, Vector.ofFn fun i ↦ c.conductance * x.get i - c.current, c⟩
  loadJacobian c _ _ _ := ⟨true, Mat.ofFn fun i j ↦ if i = j then c.conductance else 0, c⟩
  setParameter c name value :=
    if name = "conductance" then (true, { c with conductance := value })
    else if name = "current" then (true, { c with current := value })
    else (true, c)

end Conductors

end OperatingPoint
