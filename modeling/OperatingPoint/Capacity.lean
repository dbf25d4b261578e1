import OperatingPoint.Step

/-!
# Capacity

A machine keeps a block in one piece, and a block has less than `2 ^ 63` bytes.  Where a number that
comes from outside says how large something is to be, `reserve` refuses it before anything is built.
Every cell counts as one word of eight bytes.
-/

set_option autoImplicit false

namespace OperatingPoint

/-- Whether a block may have this many words. -/
def fitsBlock (words : Nat) : Bool := decide (8 * words < 1 <<< 63)

/-- Insists that a block may have this many words. -/
def reserve (words : Nat) : Except Stop Unit :=
  if fitsBlock words then .ok () else .error .breach

end OperatingPoint
