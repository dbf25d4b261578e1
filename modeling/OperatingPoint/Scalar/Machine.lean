import OperatingPoint.Scalar

/-!
# Machine scalars

Double precision numbers as scalars.  The only operation that is not one of the processor's is
`halvings`: between the largest finite number and zero there are 1024 + 1074 binary orders, so a
step that has been halved 2099 times is zero, whatever it was.
-/

set_option autoImplicit false

namespace OperatingPoint

instance Scalar.instFloat : Scalar Float where
  zero := 0.0
  one := 1.0
  natCast := Float.ofNat
  decidableLT := Float.decLt
  decidableLE := Float.decLe
  abs := Float.abs
  sqrt := Float.sqrt
  exp10 p := Float.pow 10.0 p
  infinity := 1.0 / 0.0
  undefined := 0.0 / 0.0
  isUndefined := Float.isNaN
  isFinite := Float.isFinite
  floor x := x.toUInt64.toNat
  halvings _ _ := 2099

end OperatingPoint
