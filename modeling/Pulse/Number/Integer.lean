/-
Integer literals: the 32-bit integer a spelling stands for.

`0x`, `0b` and `0o` mark radix 16, 2 and 8; without a mark the radix is 10. A sign may follow the
mark. A value outside the 32-bit range has no literal.
-/
import Pulse.Number.Digits

set_option autoImplicit false

namespace Pulse.Number

/-- The radix a spelling is marked with, and the numeral behind the mark. -/
def splitRadix : List Char → Nat × List Char
  | '0' :: 'x' :: cs => (16, cs)
  | '0' :: 'b' :: cs => (2, cs)
  | '0' :: 'o' :: cs => (8, cs)
  | cs => (10, cs)

/-- The integer as a 32-bit word, if it is in range. -/
def toInt32? (v : Int) : Option Int32 :=
  if -2147483648 ≤ v ∧ v ≤ 2147483647 then some (Int32.ofInt v) else none

/-- The 32-bit integer that a spelling stands for (`parse_integer`). -/
def readInteger? (cs : List Char) : Option Int32 :=
  let (radix, numeral) := splitRadix cs
  (signed? radix numeral).bind toInt32?

end Pulse.Number
