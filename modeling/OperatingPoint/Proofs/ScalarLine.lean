import Mathlib.Algebra.Order.Field.Rat
import Mathlib.Algebra.Order.Ring.Abs
import Mathlib.Data.Rat.Cast.Order
import OperatingPoint.Proofs.ExactScalars

/-!
# The line of numbers

`Scalar.Line` says that the finite scalars are an ordered field.  Scalars that are not finite stand
beside it.  Where a statement is about exact arithmetic and its order, what is calculated from
finite scalars is calculated in that field.

The rational numbers are such a line.
-/

set_option autoImplicit false

namespace OperatingPoint

variable {K α : Type} [Field K] [LinearOrder K] [IsStrictOrderedRing K] [Scalar α]

/-- The finite scalars as an ordered field. -/
structure Scalar.Line (K α : Type) [Field K] [LinearOrder K] [IsStrictOrderedRing K]
    [Scalar α] where
  of : K → α
  finite_iff : ∀ {a : α}, isFinite a = true ↔ ∃ p, a = of p
  defined : ∀ p, isUndefined (of p) = false
  zero : of 0 = 0
  one : of 1 = 1
  half : of (1 / 2) = 0.5
  natCast : ∀ k : Nat, of k = k
  add : ∀ p q, of (p + q) = of p + of q
  sub : ∀ p q, of (p - q) = of p - of q
  mul : ∀ p q, of (p * q) = of p * of q
  neg : ∀ p, of (-p) = -of p
  div : ∀ p {q}, q ≠ 0 → of (p / q) = of p / of q
  abs : ∀ p : K, of |p| = Scalar.abs (of p)
  lt_iff : ∀ {p q}, of p < of q ↔ p < q
  le_iff : ∀ {p q}, of p ≤ of q ↔ p ≤ q
  beq_iff : ∀ {p q}, (of p == of q) = true ↔ p = q

namespace Scalar.Line

variable (line : Line K α) {p q : K}

theorem finite (p : K) : isFinite (line.of p) = true := line.finite_iff.2 ⟨p, rfl⟩

theorem exists_pos {a : α} (finite : isFinite a = true) (pos : 0 < a) :
    ∃ p, a = line.of p ∧ 0 < p := by
  obtain ⟨p, rfl⟩ := line.finite_iff.1 finite
  rw [← line.zero, line.lt_iff] at pos
  exact ⟨p, rfl, pos⟩

theorem beq_eq_false_iff : (line.of p == line.of q) = false ↔ p ≠ q :=
  Bool.eq_false_iff.trans line.beq_iff.not

theorem min (p q : K) : Scalar.min (line.of p) (line.of q) = line.of (Min.min p q) := by
  rw [Scalar.min, line.defined, line.defined, if_neg Bool.false_ne_true,
    if_neg Bool.false_ne_true]
  by_cases below : q < p
  · rw [if_pos (line.lt_iff.2 below), min_eq_right below.le]
  · rw [if_neg (line.lt_iff.not.2 below), min_eq_left (not_lt.1 below)]

theorem max (p q : K) : Scalar.max (line.of p) (line.of q) = line.of (Max.max p q) := by
  rw [Scalar.max, line.defined, line.defined, if_neg Bool.false_ne_true,
    if_neg Bool.false_ne_true]
  by_cases below : p < q
  · rw [if_pos (line.lt_iff.2 below), max_eq_right below.le]
  · rw [if_neg (line.lt_iff.not.2 below), max_eq_left (not_lt.1 below)]

theorem injective : Function.Injective line.of := fun p _ same ↦
  line.beq_iff.1 (same ▸ line.beq_iff.2 (rfl : p = p))

end Scalar.Line

namespace ExtendedRat

theorem number_lt {p q : ℚ} : number p < number q ↔ p < q :=
  decide_eq_true_iff

theorem number_beq {p q : ℚ} : (number p == number q) = true ↔ p = q := by
  change decide (number p = number q) = true ↔ _
  rw [decide_eq_true_iff, number.injEq]

/-- The rational numbers are the line of the extended ones. -/
def line : Scalar.Line ℚ ExtendedRat where
  of := number
  finite_iff {a} := ⟨exists_of_finite, by rintro ⟨p, rfl⟩; rfl⟩
  defined _ := rfl
  zero := rfl
  one := rfl
  half := congrArg number (by decide +kernel : (1 / 2 : ℚ) = OfScientific.ofScientific 5 true 1)
  natCast _ := rfl
  add _ _ := rfl
  sub p q := congrArg number (sub_eq_add_neg p q)
  mul _ _ := rfl
  neg _ := rfl
  div p {q} nonzero := (if_neg nonzero).symm
  abs p := by
    change number |p| = if decide (p < 0) = true then number (-p) else number p
    by_cases below : p < 0
    · rw [if_pos (decide_eq_true below), abs_of_neg below]
    · rw [if_neg (by simpa using below), abs_of_nonneg (not_lt.1 below)]
  lt_iff := number_lt
  le_iff {p q} := by
    change (decide (p < q) || decide (number p = number q)) = true ↔ p ≤ q
    rw [Bool.or_eq_true, decide_eq_true_iff, decide_eq_true_iff, number.injEq, le_iff_lt_or_eq]
  beq_iff := number_beq

end ExtendedRat

end OperatingPoint
