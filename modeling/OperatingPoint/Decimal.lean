/-!
# Decimal readings of machine numbers

A finite machine number is an exact fraction.  A *reading* is that fraction rounded to the nearest
decimal of a certain length, a tie going to the even neighbour.  The length is either a number of
significant digits or a number of places after the point.

Results that carry the noise of a linear solve are read with ten significant digits, but never
beyond the twelfth place, so that what ought to be zero reads as zero.
-/

set_option autoImplicit false

namespace OperatingPoint

/-- The number `mantissa · 10^exponent`. -/
structure Decimal where
  mantissa : Int
  exponent : Int
  deriving DecidableEq, Repr

/-- A machine number as read. -/
inductive Reading where
  | undefined
  | aboveAll
  | belowAll
  | number (value : Decimal)
  deriving DecidableEq, Repr

namespace Decimal

/-- The natural number nearest to `num / den`; a tie goes to the even one. -/
def roundDiv (num den : Nat) : Nat :=
  let q := num / den
  let r := num % den
  if 2 * r < den ∨ (2 * r = den ∧ q % 2 = 0) then q else q + 1

/-- The fraction `num / den` scaled by `10^k`. -/
def scale (num den : Nat) (k : Int) : Nat × Nat :=
  if 0 ≤ k then (num * Nat.pow 10 k.toNat, den) else (num, den * Nat.pow 10 (-k).toNat)

/-- The number of decimal digits of a natural number, zero having one. -/
def digits (k : Nat) : Nat := (Nat.toDigits 10 k).length

/-- The exponent `e` with `10^e ≤ num / den < 10^(e + 1)`, for a positive fraction. -/
def magnitude (num den : Nat) : Int :=
  let shift : Int := (digits den : Int) - digits num
  let (a, b) := scale num den shift
  if b ≤ a then -shift else -shift - 1

/-- A positive fraction rounded to `places` places after the point, as a whole number of units of
the last place. -/
def toPlaces (num den : Nat) (places : Int) : Nat :=
  let (a, b) := scale num den places
  roundDiv a b

/-- A positive fraction rounded to `count` significant digits: the digits, and the exponent of the
first of them. -/
def toSignificant (num den count : Nat) : Nat × Int :=
  let e := magnitude num den
  let d := toPlaces num den ((count : Int) - 1 - e)
  if d = Nat.pow 10 count then (Nat.pow 10 (count - 1), e + 1) else (d, e)

end Decimal

namespace Reading

/-- A finite machine number as sign, numerator and denominator.  Its bits are the sign, eleven bits
of exponent and fifty-two of fraction; unless the exponent is zero, a one stands before the
fraction. -/
def fraction (x : Float) : Bool × Nat × Nat :=
  let bits := x.toBits.toNat
  let leading : Nat := 1 <<< 52
  let biased : Nat := bits / leading % 2048
  let low : Nat := bits % leading
  let (m, q) : Nat × Int :=
    if biased = 0 then (low, -1074) else (low + leading, (↑biased : Int) - 1075)
  (decide (1 <<< 63 ≤ bits), m <<< q.toNat, 1 <<< (-q).toNat)

/-- Reads a machine number, given how to read a positive fraction. -/
def read (rule : Nat → Nat → Nat × Int) (x : Float) : Reading :=
  if x.isNaN then undefined
  else if x.isInf then if 0.0 < x then aboveAll else belowAll
  else
    let (negative, num, den) := fraction x
    if num = 0 then number ⟨0, 0⟩
    else
      let (d, e) := rule num den
      number ⟨if negative then -(d : Int) else d, e⟩

/-- Twelve significant digits. -/
def plain : Float → Reading := read fun num den ↦
  let (d, e) := Decimal.toSignificant num den 12
  (d, e - 11)

/-- Ten significant digits, and at most twelve places. -/
def noisy : Float → Reading := read fun num den ↦
  let (d, e) := Decimal.toSignificant num den 10
  if 12 < 9 - e then (Decimal.toPlaces num den 12, -12) else (d, e - 9)

end Reading

end OperatingPoint
