/-!
# Scalars

Every algorithm of this library is written once, over a type of scalars with the operations listed
in `Scalar`.  The machine numbers are one such type (`OperatingPoint.Scalar.Machine`); a field with
a square root is another.  The class states no laws: what an algorithm does with numbers that are
not finite, and with comparisons that no number passes, is part of its definition, and a statement
about exact arithmetic asks for the laws it needs where it is made.

The order is the one the numbers themselves have, so `a ≤ b` may fail together with `b ≤ a`.
`max`, `min` and `clamp` below say what becomes of such operands.
-/

set_option autoImplicit false

namespace OperatingPoint

/-- The operations an engine needs of its numbers. -/
class Scalar (α : Type) extends Zero α, One α, Add α, Sub α, Mul α, Div α, Neg α, NatCast α,
    OfScientific α, LT α, LE α, BEq α where
  /-- Strict order is decidable. -/
  decidableLT : DecidableLT α
  /-- Order is decidable. -/
  decidableLE : DecidableLE α
  /-- Absolute value. -/
  abs : α → α
  /-- Square root. -/
  sqrt : α → α
  /-- Powers of ten, `10^p`. -/
  exp10 : α → α
  /-- A value above every finite one. -/
  infinity : α
  /-- The value of an undefined operation. -/
  undefined : α
  /-- Whether the value is that of an undefined operation. -/
  isUndefined : α → Bool
  /-- Whether the value is a number of the line. -/
  isFinite : α → Bool
  /-- The natural number below a value: zero for a negative or undefined one. -/
  floor : α → Nat
  /-- How often a step of the first size can be halved before it is at most the second, at most. -/
  halvings : α → α → Nat

instance Scalar.instDecidableLT {α : Type} [Scalar α] : DecidableLT α := Scalar.decidableLT

instance Scalar.instDecidableLE {α : Type} [Scalar α] : DecidableLE α := Scalar.decidableLE

namespace Scalar

variable {α : Type} [Scalar α]

/-- The greater of two values.  An undefined operand loses. -/
def max (a b : α) : α :=
  if isUndefined a then b else if isUndefined b then a else if a < b then b else a

/-- The lesser of two values.  An undefined operand loses. -/
def min (a b : α) : α :=
  if isUndefined a then b else if isUndefined b then a else if b < a then b else a

/-- The value of the interval from `lo` to `hi` nearest to `a`.  Only meaningful when `lo ≤ hi`; an
undefined `a` stays undefined. -/
def clamp (a lo hi : α) : α := if a < lo then lo else if hi < a then hi else a

/-- The length of the hypotenuse over legs `a` and `b`. -/
def hypotenuse (a b : α) : α := sqrt (a * a + b * b)

end Scalar

end OperatingPoint
